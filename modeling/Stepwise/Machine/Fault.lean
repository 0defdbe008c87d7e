import Stepwise.Arithmetic
import Stepwise.Conversion
import Stepwise.Instruction.Operand

/-!
# Faults

Why the machine cannot execute the instruction it has reached. Most faults are the fault of the
running program; a malformed instruction is the fault of whoever generated the code.
-/

namespace Stepwise

/-- What is wrong with a malformed instruction. -/
inductive Defect where
  | operandCount
  | loadOperands
  | integerOperand
  | negativeCount
  | lowFrame
  | unreadable
  | unwritable
  deriving DecidableEq, Repr

/-- The wording of a defect. -/
def Defect.message : Defect → String
  | .operandCount => "operand count"
  | .loadOperands => "LDI takes a register and an immediate"
  | .integerOperand => "expected an integer operand"
  | .negativeCount => "negative argument count"
  | .lowFrame => "frame below its arguments"
  | .unreadable => "operand cannot be read"
  | .unwritable => "operand cannot be written"

/-- Why an instruction cannot be executed. -/
inductive Fault where
  /-- There is no instruction at the program counter. -/
  | halted (pc : Nat)
  | stackUnderflow
  /-- The host has no function of this name. -/
  | unregistered (name : String)
  | noCallFrame
  /-- The address leads out of its region. -/
  | outOfBounds (address : Ptr) (slot : Int)
  | invalidJump (target : Int)
  /-- The index register holds no integer. -/
  | invalidIndex (index : Value)
  | arithmetic (cause : ArithmeticError)
  | conversion (cause : ConversionError)
  /-- The instruction or operand with this text makes no sense. -/
  | malformed (subject : String) (defect : Defect)
  deriving DecidableEq, Repr

namespace Fault

/-- The wording of a fault. -/
def message : Fault → String
  | .halted pc => "No instruction at pc " ++ toString pc ++ ": the program has halted"
  | .stackUnderflow => "Stack underflow"
  | .unregistered name => "Call to unregistered external function `" ++ name ++ "`"
  | .noCallFrame => "Return without a call frame"
  | .outOfBounds p slot =>
    "Address " ++ toString slot ++ " of `" ++ p.text ++ "` is out of bounds"
  | .invalidJump target => "Invalid jump target: " ++ toString target
  | .invalidIndex v => "Index " ++ v.text ++ " is not an integer"
  | .arithmetic e => e.message
  | .conversion e => e.message
  | .malformed subject d => "Malformed instruction `" ++ subject ++ "`: " ++ d.message

/-- Whether a fault is due to the generated code rather than to the program. -/
def isInternal : Fault → Bool
  | .malformed _ _ => true
  | _ => false

end Fault

end Stepwise
