import Stepwise.Diagnostic
import Stepwise.Image

/-!
# The frame of a function

Where the parameters and local variables of a function lie relative to its link slot. Parameters
count down from the slot below it and locals count up from the slot above. No slot is given out
twice, so a variable in an inner scope has its own slot, under a key of its own.

## Main definitions

* `FrameLayout`: the slots given out so far
* `FrameLayout.addParam`, `FrameLayout.addLocal`: new variables
* `FrameLayout.resolve`: the address in the place of a key
-/

namespace Stepwise

/-- The slots of a function's variables. -/
structure FrameLayout where
  entries : Table FrameEntry
  /-- The number of parameters. -/
  params : Nat
  /-- The offset of the next local variable. -/
  next : Nat

namespace FrameLayout

/-- The frame without variables. -/
def empty : FrameLayout := ⟨.empty, 0, 1⟩

/-- The key of the `n`th variable that shares a name. -/
def numberedKey (name : String) (n : Nat) : String := name ++ "#" ++ toString n

/-- A key for a name: the name itself, or the first numbered key that is free. Among one more
numbered keys than there are entries, one is free. -/
def freshKey (f : FrameLayout) (name : String) : String :=
  if f.entries.contains name then
    (((List.range (f.entries.size + 1)).map fun n => numberedKey name (n + 1)).find?
      fun key => !f.entries.contains key).getD name
  else name

/-- Adds a parameter and gives its key. -/
def addParam (f : FrameLayout) (name : String) (ty : Ty) : String × FrameLayout :=
  let key := f.freshKey name
  (key, { f with
    params := f.params + 1
    entries := f.entries.insert key ⟨-((f.params : Int) + 1), ty, none⟩ })

/-- Adds a local variable, an array if it has a length, and gives its key and offset. -/
def addLocal (f : FrameLayout) (name : String) (ty : Ty) (length : Option Nat) :
    (String × Nat) × FrameLayout :=
  let key := f.freshKey name
  ((key, f.next), { f with
    next := f.next + length.getD 1
    entries := f.entries.insert key ⟨f.next, ty, length⟩ })

/-- The offset of a variable. -/
def offset? (f : FrameLayout) (key : String) : Option Int := (f.entries.get? key).map (·.offset)

/-- Puts the address of a variable in the place of its key. -/
def resolve (f : FrameLayout) (function : String) (o : Operand) : Except InternalError Operand :=
  match o with
  | .var key index =>
    match f.offset? key with
    | some offset => .ok (.ptr ⟨.frame, offset, index⟩)
    | none => .error (.unresolvedVariable function key)
  | o => .ok o

end FrameLayout

end Stepwise
