import Stepwise.Scope
import Stepwise.Typing

/-!
# Constant expressions

The value of an expression that is known at compile time. Operators give the same results as the
code that they compile to.

## Main definitions

* `comparison`: the outcome of a comparison from the sign that the machine computes
* `fold`: the result of an operator on values
* `constant`: the value of an expression
-/

namespace Stepwise

/-- The outcome of a comparison operator for operands whose order has this sign. -/
def comparison (op : BinaryOp) (sign : Int64) : Bool :=
  match op with
  | .eq => sign == 0
  | .ne => sign != 0
  | .lt => sign < 0
  | .le => sign ≤ 0
  | .gt => 0 < sign
  | .ge => 0 ≤ sign
  | _ => false

/-- The result of an operator on two values. -/
def fold (op : BinaryOp) (a b : Value) : Except ArithmeticError Value :=
  match op with
  | .add => alu .add a b
  | .sub => alu .sub a b
  | .mul => alu .mul a b
  | .div => alu .div a b
  | .mod => do
    let quotient ← alu .div a b
    let product ← alu .mul quotient b
    alu .sub a product
  | .bitAnd => alu .and a b
  | .bitOr => alu .or a b
  | .bitXor => alu .xor a b
  | .eq | .ne | .lt | .le | .gt | .ge =>
    (alu .cp a b).map fun sign => .bool (comparison op (sign.toInt?.getD 0))
  | .and => .ok (.bool (!a.isZero && !b.isZero))
  | .or => .ok (.bool (!a.isZero || !b.isZero))

/-- A result of arithmetic at a place of a constant expression. -/
def constEval {α : Type} (loc : Location) : Except ArithmeticError α → Except CompileError α
  | .ok a => .ok a
  | .error e => .error (.mistake (.constEval e) loc)

/-- The value of an expression at compile time. -/
def constant (scope : Scope) : Expr → Except CompileError Value
  | .literal v _ => .ok v
  | .ident name loc => do
    match ← Mistake.locate loc (scope.resolve name) with
    | .function _ => (Mistake.notAVariable name).at loc
    | .variable v =>
      if v.isArray then (Mistake.arrayAsValue name).at loc
      else match v.value with
        | some value => .ok value
        | none => Mistake.nonConstantInitializer.at loc
  | .call _ _ loc => Mistake.callInGlobalInitializer.at loc
  | .binary op left right loc => do
    let a ← constant scope left
    let b ← constant scope right
    let _ ← Mistake.locate loc (binaryType op a.ty b.ty)
    constEval loc (fold op a b)
  | .unary op argument _ loc => do
    let a ← constant scope argument
    let _ ← Mistake.locate loc (unaryType op a.ty)
    match op with
    | .neg => constEval loc (alu .sub (.int 0) a)
    | .pos => .ok a
    | .not => .ok (.bool a.isZero)
    | .inc | .dec => Mistake.nonConstantInitializer.at loc
  | .assign _ _ loc | .member _ _ loc => Mistake.nonConstantInitializer.at loc

end Stepwise
