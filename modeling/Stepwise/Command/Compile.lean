import Stepwise.Format.File
import Stepwise.Listing

/-!
# The compile command

Reads a program and declarations of host functions, compiles the program, prints what is asked for,
and writes the image. What is wrong with the program ends the command with status 1, what is wrong
with the compiler with status 2.

## Main definitions

* `Options`, `Report`: what the command is asked to do, and its outcome
* `run`: the command, on the contents of its files
-/

namespace Stepwise.Command.Compile

open Text

/-- What the command is asked to do. -/
structure Options where
  input : String
  output : String
  hosts : Option String
  listing : Bool
  symbols : Bool

/-- The options without any argument. -/
def Options.default : Options where
  input := "main.ast.yaml"
  output := "main.img.yaml"
  hosts := none
  listing := false
  symbols := false

/-- The outcome of the command: its status, the image file, and what it prints before and after the
image is written. -/
structure Report where
  status : Nat
  printed : String
  image : Option String
  closing : String

/-- All that the command prints. -/
def Report.stdout (r : Report) : String := r.printed ++ r.closing

/-- The content of a file, or why it cannot be read. -/
abbrev File := Except String String

/-- The outcome when something is wrong. -/
def failure (status : Nat) (line : String) : Report where
  status := status
  printed := line ++ "\n"
  image := none
  closing := ""

/-- The line for a file that cannot be used. -/
def fileError (message : String) : String := paint [.red, .bold] "Error" ++ ": " ++ message

/-- Reads a file into data. -/
def readFile {α : Type} (path : String) (file : File) (f : String → Option α) : Except String α :=
  match file with
  | .error reason => .error ("Failed to open file: " ++ path ++ ": " ++ reason)
  | .ok text =>
    match f text with
    | some a => .ok a
    | none => .error ("Invalid file " ++ path)

/-- The line for a program that is not compiled, and the status. -/
def compileFailure (input : String) : CompileError → Report
  | .mistake m loc =>
    failure 1 (paint [.red, .bold] (input ++ ":" ++ loc.text) ++ " " ++ m.message)
  | .internal e => failure 2 (paint [.red, .bold] "Internal compiler error" ++ ": " ++ e.message)

/-- The outcome for an image. -/
def success (o : Options) (image : Image) : Report where
  status := 0
  printed := (if o.listing then image.listing else "") ++
    (if o.symbols then image.symbols.frames else "")
  image := some image.toText
  closing := " * " ++ toString image.code.size ++ " instructions -> " ++ o.output ++ "\n"

/-- The host functions that a program may call: the console and those of a file. -/
def readHosts (o : Options) (hostFile : File) : Except String (List HostDecl) :=
  match o.hosts with
  | none => .ok builtins
  | some path => (readFile path hostFile hostDeclsOfText?).map (builtins ++ ·)

/-- The command, on the contents of its files. -/
def run (o : Options) (source hostFile : File) : Report :=
  match readFile o.input source Program.ofText? with
  | .error e => failure 1 (fileError e)
  | .ok program =>
    match readHosts o hostFile with
    | .error e => failure 1 (fileError e)
    | .ok hosts =>
      match compile hosts program with
      | .error e => compileFailure o.input e
      | .ok image => success o image

end Stepwise.Command.Compile
