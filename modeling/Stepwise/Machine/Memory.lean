import Stepwise.Decimal.Binary
import Stepwise.Machine.Fault
import Stepwise.Machine.State

/-!
# Reading and writing operands

An address is the sum of a base, an offset and the content of an index register. Sums that do not
fit a machine word are refused, and so are slots outside the region. A slot keeps its type: what is
written into it is converted first. Registers take any value.

## Main definitions

* `State.locate`: the slot that an address names, with its content
* `State.read`, `State.write`: operands as sources and destinations
-/

namespace Stepwise

/-- A result of arithmetic, with its error as a fault. -/
def liftArithmetic {α : Type} : Except ArithmeticError α → Except Fault α
  | .ok a => .ok a
  | .error e => .error (.arithmetic e)

/-- A converted value, with its error as a fault. -/
def liftConversion {α : Type} : Except ConversionError α → Except Fault α
  | .ok a => .ok a
  | .error e => .error (.conversion e)

namespace State

/-- The content of an index register as a number; no register counts as zero. -/
def indexValue (s : State) : Option Reg → Except Fault Int
  | none => .ok 0
  | some r =>
    match (s.registers.get r).toInt? with
    | some n => .ok n.toInt
    | none => .error (.invalidIndex (s.registers.get r))

/-- The content of a slot given by an integer. -/
def slot? (s : State) (base : Base) (i : Int) : Option Value :=
  if 0 ≤ i then (s.region base)[i.toNat]? else none

/-- The slot that an address names, with its content. The offset is added first: a partial sum that
is neither a machine word nor a slot is refused, whatever the index. -/
def locate (s : State) (p : Ptr) : Except Fault (Nat × Value) := do
  let index ← s.indexValue p.index
  let start := (s.origin p.base : Int) + p.offset
  if Decimal.fitsWord start || (s.slot? p.base start).isSome then
    match s.slot? p.base (start + index) with
    | some v => .ok ((start + index).toNat, v)
    | none =>
      .error (.outOfBounds p (if Decimal.fitsWord (start + index) then start + index else index))
  else .error (.outOfBounds p index)

/-- The value of an operand. -/
def read (s : State) : Operand → Except Fault Value
  | .imm v => .ok v
  | .reg r => .ok (s.registers.get r)
  | .ptr p => (s.locate p).map (·.2)
  | o => .error (.malformed o.text .unreadable)

/-- The state after a value is written to an operand. -/
def write (s : State) (o : Operand) (v : Value) : Except Fault State :=
  match o with
  | .reg r => .ok (s.setRegister r v)
  | .ptr p => do
    let (i, old) ← s.locate p
    let new ← liftConversion (coerce old.ty v)
    .ok (s.setSlot p.base i new)
  | o => .error (.malformed o.text .unwritable)

end State

end Stepwise
