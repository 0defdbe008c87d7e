import Stepwise.Machine.Basic

/-!
# Inspection

What a debugger can see of a paused machine beside its registers and memory: the function that the
program counter is in, its parameters and local variables, and global variables by name.

## Main definitions

* `locals`: the variables of the running function that are on the stack
* `Machine.global?`: a global variable by name
-/

namespace Stepwise

/-- The name of an array element. -/
def elementName (name : String) (k : Nat) : String := name ++ "[" ++ toString k ++ "]"

/-- The slots of a variable: its own name, or one name for each element of an array, with the offset
from the start of the variable. -/
def FrameEntry.slots (name : String) (e : FrameEntry) : List (String × Nat) :=
  match e.length with
  | none => [(name, 0)]
  | some n => (List.range n).map fun k => (elementName name k, k)

/-- The parameters and local variables of the function at the program counter whose slots are on the
stack. Array elements are listed one by one. -/
def locals (symbols : Symbols) (s : State) : Table Value :=
  match symbols.functionAt? s.pc with
  | none => .empty
  | some (_, entry) =>
    .ofList <| entry.frame.entries.flatMap fun (name, slot) =>
      (slot.slots name).filterMap fun (label, k) =>
        (s.slot? .frame ((s.bp : Int) + slot.offset + k)).map (label, ·)

namespace Machine

variable {σ : Type}

/-- The name of the function that an address lies in. -/
def functionAt? (m : Machine σ) (pc : Nat) : Option String :=
  (m.image.symbols.functionAt? pc).map (·.1)

/-- The variables of the running function. -/
def locals (m : Machine σ) : Table Value := Stepwise.locals m.image.symbols m.state

/-- The content of a global variable, or of the first element of a global array. -/
def global? (m : Machine σ) (name : String) : Option Value :=
  (m.image.symbols.data.get? name).bind fun e => m.state.globals[e.offset]?

end Machine

end Stepwise
