import Stepwise.Machine.Inspection
import Stepwise.Text.Colour

/-!
# The dump

A hook that prints the machine after chosen instructions: the instruction and the registers always,
and the stack, the globals and the locals where a configuration asks for them.

## Main definitions

* `Dump.Config`: what is printed where
* `Dump.banner`, `Dump.report`: the text at the start and after an instruction
-/

namespace Stepwise.Dump

open Text

/-- What is printed after an instruction, beside the registers. -/
structure Detail where
  stack : Bool
  globals : Bool
  locals : Bool
  deriving DecidableEq, Repr

/-- Where the machine is printed: at the listed addresses with their details, and also everywhere
else if `all` is set. A list comes from a file. -/
structure Config where
  all : Bool
  file : Option (String × List (Nat × Detail))

/-- The details asked for at an address. -/
def Config.detail? (c : Config) (pc : Nat) : Option Detail :=
  match c.file with
  | none => none
  | some (_, list) => (list.find? (·.1 == pc)).map (·.2)

/-- What is announced when the hook is attached. -/
def banner (c : Config) : String :=
  unlines <| (if c.all then [" * Dump all"] else []) ++
    match c.file with
    | none => []
    | some (name, list) => [" * Dump[" ++ toString list.length ++ "] " ++ quote name]

/-- The rule between blocks. -/
def border : String := " +-----------------------------------------------+"

/-- Consecutive groups of four; `fuel` bounds their number. -/
def rowsOfFour {α : Type} : Nat → List α → List (List α)
  | 0, _ => []
  | fuel + 1, xs => if xs.isEmpty then [] else xs.take 4 :: rowsOfFour fuel (xs.drop 4)

/-- The executed instruction. -/
def instrLines (o : Observation) : List String :=
  ["[" ++ zeroPadded 4 o.step ++ "] " ++ paint [.bold] (zeroPadded 4 o.pc) ++ " " ++
    o.instr.coloured]

/-- The pointers and registers. -/
def registerLines (s : State) : List String :=
  let pointer (n : Nat) := padRight 6 (toString n)
  let cells := Reg.all.map fun r => r.name ++ ": " ++ (s.registers.get r).text
  let rows := (rowsOfFour cells.length cells).map fun row =>
    " | " ++ padRight 46 ("  ".intercalate row) ++ "|"
  [border, " | pc: " ++ pointer s.pc ++ " sp: " ++ pointer s.sp ++ " bp: " ++ pointer s.bp ++
    " depth: " ++ pointer s.depth ++ "|"] ++ rows ++ [border]

/-- The stack from its top, with addresses relative to the base pointer. -/
def stackLines (s : State) : List String :=
  let cells := s.stack.toList.zipIdx.reverse.map fun (v, addr) =>
    let rel := toString ((addr : Int) - s.bp)
    " | " ++ padLeft 4 (toString addr) ++ " " ++
      paint [.cyan] ("EBP" ++ rel ++ filler '+' 4 rel) ++ " : " ++ padRight 30 v.text ++ "|"
  cells ++ [border]

/-- A named value. -/
def namedLine (style : Style) (name : String) (v : Value) : String :=
  " | " ++ paint [style] (padRight 12 name) ++ " : " ++ padRight 30 v.text ++ "|"

/-- The global variables. -/
def globalLines (symbols : Symbols) (s : State) : List String :=
  let cells := symbols.data.entries.filterMap fun (name, e) =>
    s.globals[e.offset]?.map (namedLine .green name)
  cells ++ [border]

/-- The variables of the running function. -/
def localLines (symbols : Symbols) (s : State) : List String :=
  (locals symbols s).entries.map (fun (name, v) => namedLine .yellow name v) ++ [border]

/-- What is printed after an executed instruction. -/
def report (c : Config) (o : Observation) : String :=
  let base := instrLines o ++ registerLines o.state
  match c.detail? o.pc with
  | some d =>
    unlines <| base ++ (if d.stack then stackLines o.state else []) ++
      (if d.globals then globalLines o.image.symbols o.state else []) ++
      (if d.locals then localLines o.image.symbols o.state else [])
  | none => if c.all then unlines base else ""

/-- The machine with the dump attached, which hands its text to `emit`. -/
def install {σ : Type} (c : Config) (emit : String → σ → σ) (m : Machine σ) : Machine σ :=
  { m with world := emit (banner c) m.world }.attach fun o world => emit (report c o) world

end Stepwise.Dump
