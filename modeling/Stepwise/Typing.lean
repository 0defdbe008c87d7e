import Stepwise.Diagnostic
import Stepwise.Source.Tree

/-!
# Types of operators

The type that an operator gives for operands of given types, or the operand that it refuses. Of two
refused operands the left one is reported.

## Main definitions

* `binaryType`, `unaryType`: the type of a result
-/

namespace Stepwise

/-- Checks both operands of an operator. -/
def checkOperands (op : BinaryOp) (accept : Ty → Bool) (left right : Ty) : Except Mistake Unit :=
  if accept left then
    if accept right then .ok () else .error (.invalidOperand op.symbol right)
  else .error (.invalidOperand op.symbol left)

/-- The type of arithmetic on numbers and truth values. -/
def arithmeticType (left right : Ty) : Ty :=
  if left = .double ∨ right = .double then .double else .int

/-- Whether an addition joins texts. -/
def joinsTexts (left right : Ty) : Bool :=
  (left == .string && right != .void) || (right == .string && left != .void)

/-- The type of an operator between operands of given types. -/
def binaryType (op : BinaryOp) (left right : Ty) : Except Mistake Ty :=
  match op with
  | .add =>
    if joinsTexts left right then .ok .string
    else (checkOperands op Ty.isScalar left right).map fun _ => arithmeticType left right
  | .sub | .mul | .div =>
    (checkOperands op Ty.isScalar left right).map fun _ => arithmeticType left right
  | .mod => (checkOperands op Ty.isIntegral left right).map fun _ => .int
  | .bitAnd | .bitOr | .bitXor =>
    (checkOperands op Ty.isIntegral left right).map fun _ =>
      if left = .boolean ∧ right = .boolean then .boolean else .int
  | .eq | .ne | .lt | .le | .gt | .ge =>
    if left = .string ∧ right = .string then .ok .boolean
    else (checkOperands op Ty.isScalar left right).map fun _ => .boolean
  | .and | .or => (checkOperands op (· != .void) left right).map fun _ => .boolean

/-- The type of an operator on an operand of a given type. -/
def unaryType (op : UnaryOp) (ty : Ty) : Except Mistake Ty :=
  match op, ty with
  | .neg, .int | .neg, .boolean => .ok .int
  | .neg, .double => .ok .double
  | .pos, .int | .pos, .double | .pos, .boolean => .ok ty
  | .not, .int | .not, .double | .not, .boolean | .not, .string => .ok .boolean
  | .inc, .int | .inc, .double | .dec, .int | .dec, .double => .ok ty
  | _, _ => .error (.invalidOperand op.symbol ty)

end Stepwise
