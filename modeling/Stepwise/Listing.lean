import Stepwise.Image

/-!
# Listings

An image as text: the instructions grouped by function with the global variables, and the frames of
the functions.

## Main definitions

* `Image.listing`: instructions and globals
* `Symbols.frames`: the frames of all functions
-/

namespace Stepwise

open Text

/-- The types of the parameters of a function and of its result. -/
def CodeEntry.signature (e : CodeEntry) : String :=
  let params := (e.frame.entries.map (·.2)).filter (·.offset < 0)
  "(" ++ ", ".intercalate (params.map (·.ty.name)) ++ ") -> " ++ e.ret.name

/-- The lines of the instruction at an address: the function that starts there, if one does, and the
instruction with its origin. -/
def instrLines (symbols : Symbols) (i : Instr) (addr : Nat) : List String :=
  let head := match symbols.code.entries.find? (·.2.addr == addr) with
    | some (name, e) => ["+--------+ " ++ paint [.green] name ++ " : " ++ e.signature]
    | none => []
  let body := "| " ++ padLeft 6 (toString addr) ++ " : "
  let line := match i.origin with
    | some origin => body ++ padRight 48 i.coloured ++ " " ++ paint [.bold] origin.text
    | none => body ++ i.coloured
  head ++ [line]

/-- The line of a global variable with its contents. -/
def dataLine (globals : Array Value) (name : String) (e : DataEntry) : String :=
  let values := ((globals.toList.drop e.offset).take (e.length.getD 1)).map Value.text
  "| GBP+" ++ padRight 3 (toString e.offset) ++ " : " ++ paint [.blue] e.ty.name ++ " " ++ name ++
    " = [" ++ ", ".intercalate values ++ "]"

/-- The lines of the global variables. -/
def dataLines (symbols : Symbols) (globals : Array Value) : List String :=
  if symbols.data.entries.isEmpty then []
  else
    ["+-[Data]-+------------------------------------------------------------------------"] ++
      symbols.data.entries.map (fun (name, e) => dataLine globals name e) ++ ["+--------+"]

/-- The instructions grouped by function, and the global variables. -/
def Image.listing (image : Image) : String :=
  unlines <|
    ["+-[Inst]-+------------------------------------------------------------------------"] ++
      image.code.toList.zipIdx.flatMap (fun (i, addr) => instrLines image.symbols i addr) ++
      ["+--------+"] ++ dataLines image.symbols image.globals

/-- The line of a variable of a function. -/
def frameLine (key : String) (e : FrameEntry) : String :=
  let length := match e.length with
    | some n => "[" ++ toString n ++ "]"
    | none => ""
  "  EBP" ++ signed e.offset ++ " " ++ e.ty.name ++ length ++ " " ++ key

/-- The frames of all functions. -/
def Symbols.frames (symbols : Symbols) : String :=
  unlines <| symbols.code.entries.flatMap fun (name, e) =>
    (paint [.green] name ++ " @ " ++ toString e.addr ++ " (+" ++ toString e.size ++ ")") ::
      e.frame.entries.map fun (key, slot) => frameLine key slot

end Stepwise
