import Stepwise.Format.File
import Stepwise.Machine.Console
import Stepwise.Machine.Step

/-!
# The run command

Loads an image, runs it with a console, prints dumps where they are asked for, and writes a record
of the run.

## Main definitions

* `Options`, `Session`: what the command is asked to do, and what it has printed and recorded
* `start`, `finish`: the command before and after the run
* `run`: the whole command, on the contents of its files
-/

namespace Stepwise.Command.Run

open Text

/-- What the command is asked to do. -/
structure Options where
  input : String
  /-- The greatest number of steps. -/
  maxSteps : Nat
  dumpFile : Option String
  dumpAll : Bool
  /-- The file for the record of the run. -/
  trace : Option String
  style : Bool

/-- The options without any argument. -/
def Options.default : Options where
  input := "main.img.yaml"
  maxSteps := Decimal.maxNatWord
  dumpFile := none
  dumpAll := false
  trace := none
  style := false

/-- What the command has printed and recorded so far. -/
structure Session where
  output : String
  events : Array TraceEvent

/-- Prints a text. -/
def Session.print (s : String) (w : Session) : Session := { w with output := w.output ++ s }

/-- Records an event. -/
def Session.record (e : TraceEvent) (w : Session) : Session := { w with events := w.events.push e }

/-- Why a file cannot be used. -/
inductive FileError where
  | missing (path : String)
  | invalid (path : String)
  deriving DecidableEq, Repr

/-- The wording of a file error. -/
def FileError.message : FileError → String
  | .missing path => "Failed to open file: " ++ path
  | .invalid path => "Invalid image " ++ path

/-- Reads a file into data; `none` is a file that does not exist. -/
def readFile {α : Type} (path : String) (file : Option String) (f : String → Option α) :
    Except FileError α :=
  match file with
  | none => .error (.missing path)
  | some text =>
    match f text with
    | some a => .ok a
    | none => .error (.invalid path)

/-- The configuration of the dump. -/
def readDump (dumpAll : Bool) (dumpFile : Option String) (file : Option String) :
    Except FileError Dump.Config :=
  match dumpFile with
  | none => .ok ⟨dumpAll, none⟩
  | some path =>
    (readFile path file dumpListOfText?).map fun list => ⟨dumpAll, some (path, list)⟩

/-- The frame around the name of the image file. -/
def header (path : String) : String :=
  let border := "+-----------------------------------------------+\n"
  border ++ "| " ++ padRight 45 path ++ " |\n" ++ border

/-- A message in front of the wording of an error. -/
def errorLine (title rest : String) : String := paint [.red, .bold] title ++ rest ++ "\n"

/-- What the command has printed when it cannot start. -/
def refusal (printed : String) (e : FileError) : String :=
  printed ++ errorLine "Error" (": " ++ e.message)

/-- The machine at the start of the run, with the console, the dump and the recorder, or what is
printed if there is none. -/
def start (o : Options) (imageFile dumpFile : Option String) : Except String (Machine Session) :=
  match readFile o.input imageFile Image.ofText? with
  | .error e => .error (refusal (header o.input) e)
  | .ok image =>
    let ready := header o.input ++ "[INIT]\n"
    match readDump o.dumpAll o.dumpFile dumpFile with
    | .error e => .error (refusal ready e)
    | .ok config =>
      let m := Machine.load image ⟨ready, #[]⟩
      let m := Console.install (fun s => Session.print (Console.shown o.style s)) m
      let m := Dump.install config Session.print m
      let m := if o.trace.isSome then m.attach (recorder Session.record) else m
      .ok { m with world := m.world.print "[RUN]\n" }

/-- Whether the run goes on. -/
def goesOn (o : Options) (m : Machine Session) : Bool :=
  m.hasNext && m.state.steps < o.maxSteps

/-- The line for a fault. -/
def faultLine (m : Machine Session) (e : Fault) : String :=
  let title := if e.isInternal then "Internal error" else "Runtime error"
  errorLine title (" at " ++ toString m.state.pc ++ " (" ++
    (m.functionAt? m.state.pc).getD "?" ++ "): " ++ e.message)

/-- The outcome of the command: its status, what it prints, and the record. -/
structure Report where
  status : Nat
  stdout : String
  trace : Option String

/-- What is printed right after the run. -/
def summary (m : Machine Session) (fault : Option Fault) : String :=
  (match fault with | some e => faultLine m e | none => "") ++
    "\n * Steps: " ++ toString m.state.steps ++ "\n"

/-- The last line. -/
def footer : String := "=================================================\n"

/-- The record of the run, if it is asked for. -/
def record (o : Options) (m : Machine Session) : Option String :=
  o.trace.map fun _ => traceText m.world.events.toList

/-- The outcome after the run. -/
def finish (o : Options) (m : Machine Session) (fault : Option Fault) : Report where
  status := if fault.isSome then 1 else 0
  stdout := m.world.output ++ summary m fault ++ footer
  trace := record o m

/-- The command, on the contents of its files. -/
def run (o : Options) (imageFile dumpFile : Option String) : Report :=
  match start o imageFile dumpFile with
  | .error printed => ⟨1, printed, none⟩
  | .ok m =>
    let (m, fault) := m.runWhile (goesOn o) o.maxSteps
    finish o m fault

end Stepwise.Command.Run
