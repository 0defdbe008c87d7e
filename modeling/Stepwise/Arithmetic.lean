import Stepwise.Instruction.OpCode
import Stepwise.Value

/-!
# Arithmetic

The results of the arithmetic operations. Two operands that are integers or truth values are
combined as 64-bit integers that wrap around; otherwise, if both are numbers, as doubles. Addition
with a text joins the printed operands.

## Main definitions

* `alu`: the operations on two operands
* `increment`: the operations on one operand
* `ArithmeticError`: why an operation has no result
-/

namespace Stepwise

/-- Why an arithmetic operation has no result. Operands appear as diagnostics show them. -/
inductive ArithmeticError where
  | typeMismatch (op : OpCode) (left right : String)
  | divisionByZero
  | incomparable (left right : String)
  | notArithmetic (op : OpCode)
  deriving DecidableEq, Repr

/-- The wording of an arithmetic error. -/
def ArithmeticError.message : ArithmeticError → String
  | .typeMismatch op a b => "Cannot apply " ++ op.name ++ " to " ++ a ++ " and " ++ b
  | .divisionByZero => "Division by zero"
  | .incomparable a b => "Cannot compare " ++ a ++ " with " ++ b
  | .notArithmetic op => op.name ++ " is not an arithmetic operation"

/-- Two numbers of a common kind. -/
inductive Pair where
  | ints (x y : Int64)
  | doubles (x y : Float)

/-- Two operands as numbers of a common kind: integers if both stand for one, else doubles. -/
def promote? (a b : Value) : Option Pair :=
  match a.toInt?, b.toInt? with
  | some x, some y => some (.ints x y)
  | _, _ =>
    match a.toDouble?, b.toDouble? with
    | some x, some y => some (.doubles x y)
    | _, _ => none

/-- The order of two integers. -/
def compareInts (x y : Int64) : Ordering :=
  if x < y then .lt else if x = y then .eq else .gt

/-- The order of two doubles, if they have one. -/
def compareDoubles? (x y : Float) : Option Ordering :=
  if x < y then some .lt else if x == y then some .eq else if y < x then some .gt else none

/-- The order of two values. Texts are ordered by code points and only among themselves. -/
def ordering (a b : Value) : Except ArithmeticError Ordering :=
  let incomparable := ArithmeticError.incomparable a.inspect b.inspect
  match a, b with
  | .str s, .str t => .ok (compareOfLessAndEq s t)
  | .str _, _ | _, .str _ => .error incomparable
  | a, b =>
    match promote? a b with
    | some (.ints x y) => .ok (compareInts x y)
    | some (.doubles x y) =>
      match compareDoubles? x y with
      | some o => .ok o
      | none => .error incomparable
    | none => .error incomparable

/-- The number that a comparison leaves. -/
def orderingSign : Ordering → Int64
  | .lt => -1
  | .eq => 0
  | .gt => 1

/-- Combines two operands as numbers of a common kind. -/
def numeric (op : OpCode) (ints : Int64 → Int64 → Except ArithmeticError Value)
    (doubles : Float → Float → Float) (a b : Value) : Except ArithmeticError Value :=
  match promote? a b with
  | some (.ints x y) => ints x y
  | some (.doubles x y) => .ok (.double (doubles x y))
  | none => .error (.typeMismatch op a.inspect b.inspect)

/-- Combines two truth values, or two integers bit by bit. -/
def bitwise (op : OpCode) (truths : Bool → Bool → Bool) (ints : Int64 → Int64 → Int64)
    (a b : Value) : Except ArithmeticError Value :=
  match a, b with
  | .bool x, .bool y => .ok (.bool (truths x y))
  | a, b =>
    match a.toInt?, b.toInt? with
    | some x, some y => .ok (.int (ints x y))
    | _, _ => .error (.typeMismatch op a.inspect b.inspect)

/-- The result of an operation on two operands, which replaces the first. -/
def alu (op : OpCode) (a b : Value) : Except ArithmeticError Value :=
  match op with
  | .add =>
    if a.isText || b.isText then .ok (.str (a.text ++ b.text))
    else numeric op (fun x y => .ok (.int (x + y))) (· + ·) a b
  | .sub => numeric op (fun x y => .ok (.int (x - y))) (· - ·) a b
  | .mul => numeric op (fun x y => .ok (.int (x * y))) (· * ·) a b
  | .div =>
    let quotient (x y : Int64) : Except ArithmeticError Value :=
      if y = 0 then .error .divisionByZero else .ok (.int (x / y))
    numeric op quotient (· / ·) a b
  | .and => bitwise op (· && ·) (· &&& ·) a b
  | .or => bitwise op (· || ·) (· ||| ·) a b
  | .xor => bitwise op (· ^^ ·) (· ^^^ ·) a b
  | .cp => (ordering a b).map fun o => .int (orderingSign o)
  | op => .error (.notArithmetic op)

/-- The change that an operation on one operand makes. -/
def stepOf? : OpCode → Option Int64
  | .inc => some 1
  | .dec => some (-1)
  | _ => none

/-- The result of an operation on one operand. A truth value becomes an integer. -/
def increment (op : OpCode) (a : Value) : Except ArithmeticError Value :=
  match stepOf? op with
  | none => .error (.notArithmetic op)
  | some d =>
    match a with
    | .int n => .ok (.int (n + d))
    | .bool b => .ok (.int (Value.ofTruth b + d))
    | .double x => .ok (.double (x + Decimal.ofWord d))
    | .str _ => .error (.typeMismatch op a.inspect (toString d.toInt))

end Stepwise
