import Stepwise.Instruction.Basic

/-!
# Programs as trees

The statements and expressions of the language, each with its place in the text.

## Main definitions

* `BinaryOp`, `UnaryOp`: the operators
* `Expr`, `Stmt`, `Program`: the tree
* `Function`: a function declaration taken out of its statement
-/

namespace Stepwise

/-- An operator between two operands. -/
inductive BinaryOp where
  | add
  | sub
  | mul
  | div
  | mod
  | bitAnd
  | bitOr
  | bitXor
  | eq
  | ne
  | lt
  | le
  | gt
  | ge
  | and
  | or
  deriving DecidableEq, Repr

namespace BinaryOp

/-- The written form of an operator. -/
def symbol : BinaryOp → String
  | .add => "+"
  | .sub => "-"
  | .mul => "*"
  | .div => "/"
  | .mod => "%"
  | .bitAnd => "&"
  | .bitOr => "|"
  | .bitXor => "^"
  | .eq => "=="
  | .ne => "!="
  | .lt => "<"
  | .le => "<="
  | .gt => ">"
  | .ge => ">="
  | .and => "&&"
  | .or => "||"

/-- All operators. -/
def all : List BinaryOp :=
  [.add, .sub, .mul, .div, .mod, .bitAnd, .bitOr, .bitXor, .eq, .ne, .lt, .le, .gt, .ge, .and, .or]

/-- The operator with a given written form. -/
def ofSymbol? (s : String) : Option BinaryOp := all.find? (·.symbol == s)

theorem ofSymbol?_symbol (op : BinaryOp) : ofSymbol? op.symbol = some op := by
  cases op <;> decide

end BinaryOp

/-- An operator on one operand. -/
inductive UnaryOp where
  | neg
  | pos
  | not
  | inc
  | dec
  deriving DecidableEq, Repr

namespace UnaryOp

/-- The written form of an operator. -/
def symbol : UnaryOp → String
  | .neg => "-"
  | .pos => "+"
  | .not => "!"
  | .inc => "++"
  | .dec => "--"

/-- All operators. -/
def all : List UnaryOp := [.neg, .pos, .not, .inc, .dec]

/-- The operator with a given written form. -/
def ofSymbol? (s : String) : Option UnaryOp := all.find? (·.symbol == s)

theorem ofSymbol?_symbol (op : UnaryOp) : ofSymbol? op.symbol = some op := by
  cases op <;> decide

end UnaryOp

/-- An expression. -/
inductive Expr where
  | literal (value : Value) (loc : Location)
  | ident (name : String) (loc : Location)
  | binary (op : BinaryOp) (left right : Expr) (loc : Location)
  /-- `prefixed` tells `++x` from `x++`. -/
  | unary (op : UnaryOp) (argument : Expr) (prefixed : Bool) (loc : Location)
  | assign (left right : Expr) (loc : Location)
  | call (callee : Expr) (args : List Expr) (loc : Location)
  /-- An element of an array. -/
  | member (base index : Expr) (loc : Location)

/-- The place of an expression. -/
def Expr.loc : Expr → Location
  | .literal _ loc | .ident _ loc | .binary _ _ _ loc | .unary _ _ _ loc | .assign _ _ loc
  | .call _ _ loc | .member _ _ loc => loc

/-- The expression with another place for itself. -/
def Expr.at (e : Expr) (loc : Location) : Expr :=
  match e with
  | .literal v _ => .literal v loc
  | .ident name _ => .ident name loc
  | .binary op l r _ => .binary op l r loc
  | .unary op a p _ => .unary op a p loc
  | .assign l r _ => .assign l r loc
  | .call c args _ => .call c args loc
  | .member b i _ => .member b i loc

/-- One name of a declaration, with an initial value or the length of an array. -/
structure Declarator where
  name : String
  initializer : Option Expr
  length : Option Nat
  loc : Location

/-- Variables of one type. -/
structure Declaration where
  ty : Ty
  isArray : Bool
  declarators : List Declarator
  loc : Location

/-- A statement. -/
inductive Stmt where
  | function (name : String) (parameters : List Declaration) (body : List Stmt) (ret : Ty)
    (loc : Location)
  | declare (decl : Declaration)
  | block (body : List Stmt) (loc : Location)
  | branch (test : Expr) (consequent : Stmt) (alternate : Option Stmt) (loc : Location)
  | whileLoop (test : Expr) (body : Stmt) (loc : Location)
  | doLoop (body : Stmt) (test : Expr) (loc : Location)
  | forLoop (init : Option Stmt) (test update : Option Expr) (body : Stmt) (loc : Location)
  | ret (argument : Option Expr) (loc : Location)
  | brk (loc : Location)
  | cont (loc : Location)
  | expr (expression : Expr) (loc : Location)

/-- The place of a statement. -/
def Stmt.loc : Stmt → Location
  | .function _ _ _ _ loc | .block _ loc | .branch _ _ _ loc | .whileLoop _ _ loc | .doLoop _ _ loc
  | .forLoop _ _ _ _ loc | .ret _ loc | .brk loc | .cont loc | .expr _ loc => loc
  | .declare decl => decl.loc

/-- The statement with another place for itself. -/
def Stmt.at (s : Stmt) (loc : Location) : Stmt :=
  match s with
  | .function n ps b r _ => .function n ps b r loc
  | .declare d => .declare { d with loc := loc }
  | .block b _ => .block b loc
  | .branch t c a _ => .branch t c a loc
  | .whileLoop t b _ => .whileLoop t b loc
  | .doLoop b t _ => .doLoop b t loc
  | .forLoop i t u b _ => .forLoop i t u b loc
  | .ret a _ => .ret a loc
  | .brk _ => .brk loc
  | .cont _ => .cont loc
  | .expr e _ => .expr e loc

/-- A whole program. -/
structure Program where
  statements : List Stmt

/-- A function declaration. -/
structure Function where
  name : String
  parameters : List Declaration
  body : List Stmt
  ret : Ty
  loc : Location

/-- The function that a statement declares, if it does. -/
def Stmt.function? : Stmt → Option Function
  | .function name parameters body result loc => some ⟨name, parameters, body, result, loc⟩
  | _ => none

end Stepwise
