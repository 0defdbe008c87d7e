import Stepwise.Instruction.Operand

/-!
# The state of the machine

The registers, the stack, the global region and the calls in progress. Values move between registers
freely; a slot of memory is one element of a region, the stack or the globals.

## Main definitions

* `Registers`, `CallFrame`, `State`: the parts of the state
* `State.region`, `State.origin`: the region that a base names, and where its addresses start
-/

namespace Stepwise

/-- The contents of the registers. -/
structure Registers where
  cells : Vector Value 10
  deriving DecidableEq, Repr

namespace Registers

/-- All registers zero. -/
def initial : Registers := ⟨Vector.replicate 10 (.int 0)⟩

/-- The content of a register. -/
def get (rs : Registers) (r : Reg) : Value := rs.cells[r.index]

/-- The registers with one replaced. -/
def set (rs : Registers) (r : Reg) (v : Value) : Registers := ⟨rs.cells.set r.index v⟩

@[simp]
theorem get_initial (r : Reg) : initial.get r = .int 0 := by
  simp [initial, get]

@[simp]
theorem get_set_self (rs : Registers) (r : Reg) (v : Value) : (rs.set r v).get r = v := by
  simp [get, set]

theorem get_set_of_ne (rs : Registers) {r s : Reg} (h : r ≠ s) (v : Value) :
    (rs.set r v).get s = rs.get s := by
  have hi : r.index.val ≠ s.index.val := fun e => h (Reg.index_injective (Fin.ext e))
  simp [get, set, hi]

end Registers

/-- What a call leaves for its return: where to go on, the base pointer of the caller, and how many
arguments lie below the link slot. -/
structure CallFrame where
  returnPc : Nat
  bp : Nat
  argc : Nat
  deriving DecidableEq, Repr

/-- The state of the machine. The calls in progress are listed from the innermost outward. -/
structure State where
  pc : Nat
  bp : Nat
  registers : Registers
  stack : Array Value
  globals : Array Value
  frames : List CallFrame
  steps : Nat
  deriving DecidableEq, Repr

namespace State

/-- The state in which a program with these globals starts. -/
def initial (globals : Array Value) : State where
  pc := 0
  bp := 0
  registers := .initial
  stack := #[]
  globals := globals
  frames := []
  steps := 0

/-- The number of values on the stack. -/
def sp (s : State) : Nat := s.stack.size

/-- The number of calls in progress. -/
def depth (s : State) : Nat := s.frames.length

/-- The memory that a base refers to. -/
def region (s : State) : Base → Array Value
  | .frame => s.stack
  | .global => s.globals

/-- The index in its region that a base refers to. -/
def origin (s : State) : Base → Nat
  | .frame => s.bp
  | .global => 0

/-- The state with one slot replaced. -/
def setSlot (s : State) (base : Base) (i : Nat) (v : Value) : State :=
  match base with
  | .frame => { s with stack := s.stack.setIfInBounds i v }
  | .global => { s with globals := s.globals.setIfInBounds i v }

/-- The state with one register replaced. -/
def setRegister (s : State) (r : Reg) (v : Value) : State :=
  { s with registers := s.registers.set r v }

/-- The state with a value pushed. -/
def push (s : State) (v : Value) : State := { s with stack := s.stack.push v }

end State

end Stepwise
