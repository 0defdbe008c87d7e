import Stepwise.Format.Program
import Stepwise.Image

/-!
# Images as data

The data tree of an image and back. The kind of an operand is a tag; names are the keys of mappings,
in their order; a remark, an origin or a length that is absent is left out.

## Main definitions

* `Image.toNode`, `Image.ofNode?`: an image as data and back
-/

namespace Stepwise

open Yaml

/-- The data of a register. -/
def Reg.toNode (r : Reg) : Node := .str r.name

/-- The register of data. -/
def Reg.ofNode? (node : Node) : Option Reg := node.text?.bind Reg.ofName?

/-- The data of an index register. -/
def indexNode (index : Option Reg) : Node := .ofOption Reg.toNode index

/-- The data of an operand. -/
def Operand.toNode : Operand → Node
  | .imm v => .tagged "Imm" (.ofValue v)
  | .reg r => .tagged "Reg" r.toNode
  | .ptr p =>
    .tagged "Ptr" <| .map
      [("base", .str p.base.name), ("offset", .int p.offset), ("index", indexNode p.index)]
  | .host name => .tagged "Extern" (.str name)
  | .var key index =>
    .tagged "Var" (.map [("name", .str key), ("index", indexNode index)])
  | .label name => .tagged "Label" (.str name)

/-- The operand of data. -/
def Operand.ofNode? : Node → Option Operand
  | .tagged "Imm" node => node.value?.map .imm
  | .tagged "Reg" node => (Reg.ofNode? node).map .reg
  | .tagged "Ptr" node => do
    let fields ← node.fields?
    let base ← required fields "base" fun node => node.text?.bind Base.ofName?
    let offset ← required fields "offset" Node.int?
    let index ← optional fields "index" Reg.ofNode?
    return .ptr ⟨base, offset, index⟩
  | .tagged "Extern" node => node.text?.map .host
  | .tagged "Var" node => do
    let fields ← node.fields?
    let key ← required fields "name" Node.text?
    let index ← optional fields "index" Reg.ofNode?
    return .var key index
  | .tagged "Label" node => node.text?.map .label
  | _ => none

/-- The data of an instruction. -/
def Instr.toNode (i : Instr) : Node :=
  .map <| [("op", .str i.op.name), ("dest", .ofOption Operand.toNode i.dest),
    ("src", .ofOption Operand.toNode i.src)] ++
    present "comment" (fun s : String => .str s) i.comment ++
    present "origin" Location.toNode i.origin

/-- The instruction of data. -/
def Instr.ofNode? (node : Node) : Option Instr := do
  let fields ← node.fields?
  return {
    op := ← required fields "op" fun node => node.text?.bind OpCode.ofName?
    dest := ← optional fields "dest" Operand.ofNode?
    src := ← optional fields "src" Operand.ofNode?
    comment := ← optional fields "comment" Node.text?
    origin := ← optional fields "origin" Location.ofNode? }

/-- The data of a length. -/
def lengthFields (length : Option Nat) : Fields := present "length" (fun n : Nat => .int n) length

/-- The data of the place of a local variable. -/
def FrameEntry.toNode (e : FrameEntry) : Node :=
  .map <| [("offset", .int e.offset), ("ty", .str e.ty.name)] ++ lengthFields e.length

/-- The place of a local variable of data. -/
def FrameEntry.ofNode? (node : Node) : Option FrameEntry := do
  let fields ← node.fields?
  return ⟨← required fields "offset" Node.int?, ← required fields "ty" Node.ty?,
    ← optional fields "length" Node.nat?⟩

/-- The data of the place of a global variable. -/
def DataEntry.toNode (e : DataEntry) : Node :=
  .map <| [("offset", .int e.offset), ("ty", .str e.ty.name)] ++ lengthFields e.length

/-- The place of a global variable of data. -/
def DataEntry.ofNode? (node : Node) : Option DataEntry := do
  let fields ← node.fields?
  return ⟨← required fields "offset" Node.nat?, ← required fields "ty" Node.ty?,
    ← optional fields "length" Node.nat?⟩

/-- The data of a table. -/
def Table.toNode {α : Type} (f : α → Node) (t : Table α) : Node :=
  .map (t.entries.map fun (key, a) => (key, f a))

/-- The table of data. -/
def Table.ofNode? {α : Type} (f : Node → Option α) (node : Node) : Option (Table α) := do
  let fields ← node.fields?
  let entries ← fields.mapM fun (key, node) => (f node).map (key, ·)
  return .ofList entries

/-- The data of a function's code. -/
def CodeEntry.toNode (e : CodeEntry) : Node :=
  .map [("addr", .int e.addr), ("size", .int e.size), ("ret", .str e.ret.name),
    ("frame", e.frame.toNode FrameEntry.toNode)]

/-- The code of a function of data. -/
def CodeEntry.ofNode? (node : Node) : Option CodeEntry := do
  let fields ← node.fields?
  return {
    addr := ← required fields "addr" Node.nat?
    size := ← required fields "size" Node.nat?
    ret := ← required fields "ret" Node.ty?
    frame := ← required fields "frame" (Table.ofNode? FrameEntry.ofNode?) }

/-- The data of the names of a program. -/
def Symbols.toNode (s : Symbols) : Node :=
  .map [("code", s.code.toNode CodeEntry.toNode), ("data", s.data.toNode DataEntry.toNode)]

/-- The names of data. -/
def Symbols.ofNode? (node : Node) : Option Symbols := do
  let fields ← node.fields?
  return ⟨← required fields "code" (Table.ofNode? CodeEntry.ofNode?),
    ← required fields "data" (Table.ofNode? DataEntry.ofNode?)⟩

/-- The data of an image. -/
def Image.toNode (i : Image) : Node :=
  .map [("instructions", .seq (i.code.toList.map Instr.toNode)),
    ("globals", .seq (i.globals.toList.map Node.ofValue)), ("symbols", i.symbols.toNode)]

/-- The image of data. -/
def Image.ofNode? (node : Node) : Option Image := do
  let fields ← node.fields?
  let code ← required fields "instructions" (Node.list? Instr.ofNode?)
  let globals ← required fields "globals" (Node.list? Node.value?)
  let symbols ← withDefault fields "symbols" .empty Symbols.ofNode?
  return ⟨code.toArray, globals.toArray, symbols⟩

/-- Whether a value is a double that is not a number, which equals nothing. -/
def Value.isNaN : Value → Bool
  | .double x => x.isNaN
  | _ => false

/-- Whether an operand is a constant that equals nothing. -/
def Operand.isNaN : Operand → Bool
  | .imm v => v.isNaN
  | _ => false

/-- Whether an image holds a value that equals nothing. -/
def Image.hasNaN (i : Image) : Bool :=
  i.globals.any Value.isNaN || i.code.any fun instr => instr.operands.any Operand.isNaN

end Stepwise
