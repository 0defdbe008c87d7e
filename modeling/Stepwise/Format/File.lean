import Stepwise.Compiler
import Stepwise.Format.Image
import Stepwise.Machine.Dump
import Stepwise.Machine.Recorder
import Stepwise.Yaml.Reader
import Stepwise.Yaml.Writer

/-!
# Files

The texts of the files that the commands read and write: programs, images, declarations of host
functions, configurations of the dump, and records of a run.

## Main definitions

* `Program.toText`, `Program.ofText?`: programs
* `Image.toText`, `Image.ofText?`: images
* `hostDeclsOfText?`, `dumpListOfText?`, `traceText`: the other files
-/

namespace Stepwise

open Yaml

/-- The text of a program. -/
def Program.toText (p : Program) : String := p.toNode.render

/-- The program of a text. -/
def Program.ofText? (s : String) : Option Program := (parse? s).bind Program.ofNode?

/-- The text of an image. -/
def Image.toText (i : Image) : String := i.toNode.render

/-- The image of a text. -/
def Image.ofText? (s : String) : Option Image := (parse? s).bind Image.ofNode?

/-- Whether the text of an image is read back as an image that equals it. -/
def Image.isStable (i : Image) : Bool :=
  !i.hasNaN && decide (Image.ofText? i.toText = some i)

/-- The declaration of a host function of data. -/
def HostDecl.ofNode? (node : Node) : Option HostDecl := do
  let fields ← node.fields?
  return {
    name := ← required fields "name" Node.text?
    params := ← withDefault fields "params" [] (Node.list? Node.ty?)
    ret := ← withDefault fields "ret" .void Node.ty?
    variadic := ← withDefault fields "variadic" false Node.bool? }

/-- The declarations of host functions of a text. -/
def hostDeclsOfText? (s : String) : Option (List HostDecl) :=
  (parse? s).bind (Node.list? HostDecl.ofNode?)

/-- The details of a dump of data. -/
def detailOfNode? (node : Node) : Option Dump.Detail := do
  let fields ← node.fields?
  let flag (key : String) : Option Bool := withDefault fields key false Node.bool?
  return ⟨← flag "stack", ← flag "globals", ← flag "locals"⟩

/-- The list of a dump configuration of a text. -/
def dumpListOfText? (s : String) : Option (List (Nat × Dump.Detail)) := do
  let fields ← (← parse? s).fields?
  fields.mapM fun (key, node) => do
    let pc ← (resolve key).nat?
    return (pc, ← detailOfNode? node)

/-- The data of an event. -/
def TraceEvent.toNode (e : TraceEvent) : Node :=
  .map [("step", .int e.step), ("pc", .int e.pc), ("inst", .str e.instr), ("sp", .int e.sp),
    ("bp", .int e.bp)]

/-- The text of a record. -/
def traceText (events : List TraceEvent) : String :=
  (Node.seq (events.map TraceEvent.toNode)).render

end Stepwise
