/-!
# Operation codes

The nineteen operations of the machine, their names and how many operands each of them takes.
-/

namespace Stepwise

/-- An operation of the machine. -/
inductive OpCode where
  | add
  | sub
  | mul
  | div
  | and
  | or
  | xor
  | inc
  | dec
  | cp
  | mov
  | ldi
  | push
  | pop
  | jmp
  | rjmp
  | call
  | ret
  | nop
  deriving DecidableEq, Repr, Inhabited

namespace OpCode

/-- The name of an operation. -/
def name : OpCode → String
  | .add => "ADD"
  | .sub => "SUB"
  | .mul => "MUL"
  | .div => "DIV"
  | .and => "AND"
  | .or => "OR"
  | .xor => "XOR"
  | .inc => "INC"
  | .dec => "DEC"
  | .cp => "CP"
  | .mov => "MOV"
  | .ldi => "LDI"
  | .push => "PUSH"
  | .pop => "POP"
  | .jmp => "JMP"
  | .rjmp => "RJMP"
  | .call => "CALL"
  | .ret => "RET"
  | .nop => "NOP"

/-- All operations. -/
def all : List OpCode :=
  [.add, .sub, .mul, .div, .and, .or, .xor, .inc, .dec, .cp, .mov, .ldi, .push, .pop, .jmp, .rjmp,
    .call, .ret, .nop]

/-- The operation with a given name. -/
def ofName? (s : String) : Option OpCode := all.find? (·.name == s)

/-- The least and the greatest number of operands. -/
def arity : OpCode → Nat × Nat
  | .add | .sub | .mul | .div | .and | .or | .xor | .cp | .mov | .ldi | .call => (2, 2)
  | .inc | .dec | .push | .pop => (1, 1)
  | .jmp | .rjmp => (1, 2)
  | .ret | .nop => (0, 0)

theorem ofName?_name (c : OpCode) : ofName? c.name = some c := by
  cases c <;> decide

end OpCode

end Stepwise
