import Stepwise.Command.Arguments

/-!
# The command line

`compile` turns a program into an image and `run` executes an image. This module reads and writes
files and prints; what is read, written and printed is decided elsewhere.
-/

namespace Stepwise.Command

/-- The number of an error of the operating system, which may come as a negative word. -/
def errorNumber (code : UInt32) : Nat :=
  if code.toNat < 0x80000000 then code.toNat else 0x100000000 - code.toNat

/-- An error of the operating system with its number. -/
def numbered (what : String) (code : UInt32) : String :=
  what ++ " (os error " ++ toString (errorNumber code) ++ ")"

/-- Why a file cannot be read or written, in the words of the operating system. -/
def reason : IO.Error → String
  | .noFileOrDirectory _ code _ => numbered "No such file or directory" code
  | .permissionDenied _ code _ => numbered "Permission denied" code
  | e => toString e

/-- The content of a file, or why it cannot be read. -/
def readText (path : String) : IO (Except String String) := do
  try return .ok (← IO.FS.readFile path)
  catch e => return .error (reason e)

/-- Writes a file, and tells why it cannot. -/
def writeText (path text : String) : IO (Option String) := do
  try
    IO.FS.writeFile path text
    return none
  catch e => return some (reason e)

/-- Prints a text at once. -/
def printNow (text : String) : IO Unit := do
  let out ← IO.getStdout
  out.putStr text
  out.flush

/-- The compile command. -/
def compileMain (o : Compile.Options) : IO UInt32 := do
  let source ← readText o.input
  let hosts ← match o.hosts with
    | some path => readText path
    | none => pure (.ok "")
  let r := Compile.run o source hosts
  printNow r.printed
  let failed ← match r.image with
    | none => pure none
    | some text => writeText o.output text
  if failed.isSome then
    printNow (Compile.fileError ("Failed to create file: " ++ o.output) ++ "\n")
    return 1
  else
    printNow r.closing
    return r.status.toUInt32

/-- Runs the machine one instruction at a time and prints what each one prints. -/
partial def runLoop (o : Run.Options) (m : Machine Run.Session) :
    IO (Machine Run.Session × Option Fault) := do
  unless m.world.output.isEmpty do printNow m.world.output
  let m := { m with world := { m.world with output := "" } }
  if Run.goesOn o m then
    match m.runWhile (Run.goesOn o) 1 with
    | (m, none) => runLoop o m
    | stopped => return stopped
  else return (m, none)

/-- Writes the record of a run and gives the status of the command. -/
def writeRecord (o : Run.Options) (m : Machine Run.Session) (status : UInt32) : IO UInt32 := do
  match o.trace, Run.record o m with
  | some path, some text =>
    match ← writeText path text with
    | none => return status
    | some e =>
      printNow (Run.errorLine "Error" (": failed to write trace " ++ path ++ ": " ++ e))
      return 1
  | _, _ => return status

/-- The run command. -/
def runMain (o : Run.Options) : IO UInt32 := do
  let image ← readText o.input
  let dump ← match o.dumpFile with
    | some path => readText path
    | none => pure (.ok "")
  match Run.start o image.toOption dump.toOption with
  | .error printed =>
    printNow printed
    return 1
  | .ok m =>
    let (m, fault) ← runLoop o m
    printNow (m.world.output ++ Run.summary m fault)
    let status ← writeRecord o m (if fault.isSome then 1 else 0)
    printNow Run.footer
    return status

/-- Runs a command on its options, unless something is wrong with them. -/
def withOptions {α : Type} (options : Except ArgumentError α) (command : α → IO UInt32) :
    IO UInt32 :=
  match options with
  | .ok o => command o
  | .error e => do
    IO.eprintln e.message
    return 2

/-- The program: the first word of the command line is the command. -/
def dispatch (args : List String) : IO UInt32 :=
  match args with
  | "compile" :: rest => withOptions (Compile.Options.ofArgs rest) compileMain
  | "run" :: rest => withOptions (Run.Options.ofArgs rest) runMain
  | _ => do
    IO.eprintln "usage: stepwise (compile | run) [options] [file]"
    return 2

end Stepwise.Command

/-- The entry point. -/
def main (args : List String) : IO UInt32 := Stepwise.Command.dispatch args
