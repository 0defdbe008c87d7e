import Stepwise.Instruction.Basic
import Stepwise.Machine.Fault

/-!
# Operations

An instruction is written with optional operands; an operation has exactly the operands that its
code requires. Decoding refuses an instruction with the wrong number of operands, and a load of
anything but a constant into a register.
-/

namespace Stepwise

/-- What an instruction asks the machine to do. -/
inductive Operation where
  /-- Combines two operands into the first. -/
  | compute (op : OpCode) (dest src : Operand)
  /-- Changes an operand by one. -/
  | change (op : OpCode) (dest : Operand)
  | move (dest src : Operand)
  | load (dest : Reg) (value : Value)
  | push (src : Operand)
  | pop (dest : Operand)
  /-- Jumps if the condition is zero or absent. -/
  | jump (relative : Bool) (target : Operand) (condition : Option Operand)
  | call (target argc : Operand)
  | ret
  | nop
  deriving DecidableEq, Repr

/-- The operation of an instruction. -/
def Instr.decode (i : Instr) : Except Fault Operation :=
  let count := Fault.malformed i.text .operandCount
  match i.op, i.dest, i.src with
  | .add, some d, some s | .sub, some d, some s | .mul, some d, some s | .div, some d, some s
  | .and, some d, some s | .or, some d, some s | .xor, some d, some s | .cp, some d, some s =>
    .ok (.compute i.op d s)
  | .inc, some d, none | .dec, some d, none => .ok (.change i.op d)
  | .mov, some d, some s => .ok (.move d s)
  | .ldi, some (.reg r), some (.imm v) => .ok (.load r v)
  | .ldi, some _, some _ => .error (.malformed i.text .loadOperands)
  | .push, some s, none => .ok (.push s)
  | .pop, some d, none => .ok (.pop d)
  | .jmp, some t, c => .ok (.jump false t c)
  | .rjmp, some t, c => .ok (.jump true t c)
  | .call, some t, some n => .ok (.call t n)
  | .ret, none, none => .ok .ret
  | .nop, none, none => .ok .nop
  | _, _, _ => .error count

/-- Decoding complains about the operand count exactly where the instruction is not well formed. -/
theorem decode_eq_operandCount_iff (i : Instr) :
    i.decode = .error (.malformed i.text .operandCount) ↔ i.isWellFormed = false := by
  obtain ⟨op, dest, src, comment, origin⟩ := i
  cases op <;> cases dest <;> cases src <;>
    simp [Instr.decode, Instr.isWellFormed, OpCode.arity]
  all_goals split <;> simp_all

end Stepwise
