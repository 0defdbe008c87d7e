import Stepwise.Instruction.Basic
import Stepwise.Table

/-!
# Program images

An image is what the compiler produces and the machine loads: the instructions, the first contents
of the global region, and a map from names to code and memory for whoever inspects a run.

## Main definitions

* `Image`: instructions, globals and symbols
* `Symbols.functionAt?`: the function that an address lies in
-/

namespace Stepwise

/-- The place of a parameter or local variable relative to the link slot of its function. An array
has a length. -/
structure FrameEntry where
  offset : Int
  ty : Ty
  length : Option Nat
  deriving DecidableEq, Repr

/-- The place of a global variable. An array has a length. -/
structure DataEntry where
  offset : Nat
  ty : Ty
  length : Option Nat
  deriving DecidableEq, Repr

/-- The code of a function and its variables. -/
structure CodeEntry where
  addr : Nat
  size : Nat
  ret : Ty
  frame : Table FrameEntry
  deriving DecidableEq, Repr

/-- The names of a program. -/
structure Symbols where
  code : Table CodeEntry
  data : Table DataEntry
  deriving DecidableEq, Repr

/-- The map without names. -/
def Symbols.empty : Symbols := ⟨.empty, .empty⟩

/-- Whether an address lies in the code of a function. -/
def CodeEntry.covers (e : CodeEntry) (pc : Nat) : Bool := e.addr ≤ pc && pc < e.addr + e.size

/-- The first function whose code an address lies in. -/
def Symbols.functionAt? (s : Symbols) (pc : Nat) : Option (String × CodeEntry) :=
  s.code.entries.find? (·.2.covers pc)

/-- A program that the machine can load. -/
structure Image where
  code : Array Instr
  globals : Array Value
  symbols : Symbols
  deriving DecidableEq, Repr

end Stepwise
