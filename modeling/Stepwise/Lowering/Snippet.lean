import Stepwise.Assembly
import Stepwise.Source.Tree

/-!
# Code snippets

The instruction sequences that operators and control structures compile to, from the code of their
parts. An expression leaves its value on top of the stack; a condition leaves it in `R0`. The
registers `R0`, `R1`, `R2` and `IX` hold nothing between two snippets.

## Main definitions

* `binaryCode`, `unaryCode`: operators
* `andCode`, `orCode`: operators that may skip their right side
* `branchCode`, `whileCode`, `doCode`, `forCode`: control structures
-/

namespace Stepwise.Snippet

/-- A register as an operand. -/
def r0 : Operand := .reg .r0

@[inherit_doc r0]
def r1 : Operand := .reg .r1

@[inherit_doc r0]
def r2 : Operand := .reg .r2

@[inherit_doc r0]
def rv : Operand := .reg .rv

@[inherit_doc r0]
def ix : Operand := .reg .ix

/-- Pushes whether `R0` is zero, or whether it is not. -/
def zeroTest (zero : Bool) : Code :=
  Code.ofInstrs [.ldi .r2 (.bool zero), .rjmpIfZero (.imm (.int 2)) .r0, .ldi .r2 (.bool !zero),
    .push r2]

/-- Pushes the result of an operation on `R0` and `R1`. -/
def aluCode (op : OpCode) : Code := Code.ofInstrs [.binary op r0 r1, .push r0]

/-- Pushes the remainder of `R0` by `R1`, as the difference to the product of the quotient. -/
def remainderCode : Code :=
  Code.ofInstrs [.mov r2 r0, .binary .div r0 r1, .binary .mul r0 r1, .binary .sub r2 r0, .push r2]

/-- Pushes a truth value from the order of `R0` and `R1`. The sign of the order is shifted so that
the outcome shows as zero or not. -/
def comparisonCode (shift : List Instr) (zero : Bool) : Code :=
  Code.ofInstrs (.binary .cp r0 r1 :: shift) ++ zeroTest zero

/-- Pushes the result of an operator on `R0` and `R1`. -/
def applyCode : BinaryOp → Code
  | .add => aluCode .add
  | .sub => aluCode .sub
  | .mul => aluCode .mul
  | .div => aluCode .div
  | .bitAnd => aluCode .and
  | .bitOr => aluCode .or
  | .bitXor => aluCode .xor
  | .mod => remainderCode
  | .eq => comparisonCode [] true
  | .ne => comparisonCode [] false
  | .lt => comparisonCode [.unary .inc r0] true
  | .ge => comparisonCode [.unary .inc r0] false
  | .gt => comparisonCode [.unary .dec r0] true
  | .le => comparisonCode [.unary .dec r0] false
  | .and | .or => []

/-- An operator on the values of two expressions. -/
def binaryCode (op : BinaryOp) (left right : Code) : Code :=
  left ++ right ++ Code.ofInstrs [.pop r1, .pop r0] ++ applyCode op

/-- An operator on the value of an expression. -/
def unaryCode (op : UnaryOp) (argument : Code) : Code :=
  argument ++ match op with
    | .neg => Code.ofInstrs [.pop r1, .ldi .r0 (.int 0), .binary .sub r0 r1, .push r0]
    | .not => Code.ofInstrs [.pop r0] ++ zeroTest true
    | _ => []

/-- Pops a value into `R0` and jumps if it is zero. -/
def popTest (target : String) : Code :=
  Code.ofInstrs [.pop r0, .rjmpIfZero (.label target) .r0]

/-- The labels of an operator that may skip its right side. -/
structure TruthLabels where
  yes : String
  no : String
  done : String

/-- Pushes `true` when reached at `yes` and `false` when reached at `no`. -/
def truthCode (l : TruthLabels) : Code :=
  [.label l.yes, .instr (.ldi .r2 (.bool true)), .instr (.rjmp (.label l.done)), .label l.no,
    .instr (.ldi .r2 (.bool false)), .label l.done, .instr (.push r2)]

/-- Both sides must hold; the right one is skipped if the left one does not. -/
def andCode (l : TruthLabels) (left right : Code) : Code :=
  left ++ popTest l.no ++ right ++ popTest l.no ++ truthCode l

/-- One side must hold; the right one is skipped if the left one does. -/
def orCode (l : TruthLabels) (rhs : String) (left right : Code) : Code :=
  left ++ popTest rhs ++ [.instr (.rjmp (.label l.yes)), .label rhs] ++ right ++ popTest l.no ++
    truthCode l

/-- Evaluates a condition into `R0`. -/
def conditionCode (test : Code) : Code := test ++ Code.ofInstrs [.pop r0]

/-- Jumps if `R0` is zero. -/
def jumpIfZero (target : String) : Line := .instr (.rjmpIfZero (.label target) .r0)

/-- Jumps. -/
def jump (target : String) : Line := .instr (.rjmp (.label target))

/-- A branch without an alternative. -/
def branchCode (done : String) (test consequent : Code) : Code :=
  conditionCode test ++ [jumpIfZero done] ++ consequent ++ [.label done]

/-- A branch with an alternative. -/
def branchElseCode (done other : String) (test consequent alternate : Code) : Code :=
  conditionCode test ++ [jumpIfZero other] ++ consequent ++ [jump done, .label other] ++
    alternate ++ [.label done]

/-- A loop that tests first. -/
def whileCode (top exit : String) (test body : Code) : Code :=
  [.label top] ++ conditionCode test ++ [jumpIfZero exit] ++ body ++ [jump top, .label exit]

/-- A loop that tests last. -/
def doCode (top next exit : String) (body test : Code) : Code :=
  [.label top] ++ body ++ [.label next] ++ conditionCode test ++
    [jumpIfZero exit, jump top, .label exit]

/-- A loop with a header. Without a test it goes on until it is left. -/
def forCode (top next exit : String) (init : Code) (test : Option Code) (body update : Code) :
    Code :=
  let test : Code := match test with
    | some test => conditionCode test ++ [jumpIfZero exit]
    | none => []
  init ++ [.label top] ++ test ++ body ++ [.label next] ++ update ++ [jump top, .label exit]

end Stepwise.Snippet
