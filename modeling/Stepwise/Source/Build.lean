import Stepwise.Source.Tree

/-!
# Building programs by hand

Short forms for trees whose places do not matter.
-/

namespace Stepwise.Build

/-- A literal. -/
def lit (v : Value) : Expr := .literal v .unknown

/-- A name. -/
def ident (name : String) : Expr := .ident name .unknown

/-- An operator between two expressions. -/
def binary (op : BinaryOp) (left right : Expr) : Expr := .binary op left right .unknown

/-- An operator in front of an expression. -/
def unary (op : UnaryOp) (argument : Expr) : Expr := .unary op argument true .unknown

/-- An operator behind an expression. -/
def suffixed (op : UnaryOp) (argument : Expr) : Expr := .unary op argument false .unknown

/-- An assignment. -/
def assign (left right : Expr) : Expr := .assign left right .unknown

/-- A call of a named function. -/
def call (name : String) (args : List Expr) : Expr := .call (ident name) args .unknown

/-- An element of a named array. -/
def member (name : String) (index : Expr) : Expr := .member (ident name) index .unknown

/-- A name of a declaration, with an initial value. -/
def declarator (name : String) (init : Option Expr) : Declarator := ⟨name, init, none, .unknown⟩

/-- Variables of one type. -/
def declaration (ty : Ty) (ds : List Declarator) : Declaration := ⟨ty, false, ds, .unknown⟩

/-- A declaration of one variable. -/
def var (ty : Ty) (name : String) (init : Option Expr) : Stmt :=
  .declare (declaration ty [declarator name init])

/-- A declaration of one array. -/
def array (ty : Ty) (name : String) (length : Nat) : Stmt :=
  .declare ⟨ty, true, [⟨name, none, some length, .unknown⟩], .unknown⟩

/-- A parameter. -/
def param (ty : Ty) (name : String) : Declaration := declaration ty [declarator name none]

/-- A function. -/
def func (name : String) (parameters : List Declaration) (ret : Ty) (body : List Stmt) : Stmt :=
  .function name parameters body ret .unknown

/-- An expression as a statement. -/
def expr (e : Expr) : Stmt := .expr e .unknown

/-- A block. -/
def block (body : List Stmt) : Stmt := .block body .unknown

/-- A branch. -/
def branch (test : Expr) (consequent : Stmt) (alternate : Option Stmt) : Stmt :=
  .branch test consequent alternate .unknown

/-- A loop that tests first. -/
def whileLoop (test : Expr) (body : Stmt) : Stmt := .whileLoop test body .unknown

/-- A loop that tests last. -/
def doLoop (body : Stmt) (test : Expr) : Stmt := .doLoop body test .unknown

/-- A loop with a header. -/
def forLoop (init : Option Stmt) (test update : Option Expr) (body : Stmt) : Stmt :=
  .forLoop init test update body .unknown

/-- A return. -/
def ret (argument : Option Expr) : Stmt := .ret argument .unknown

/-- Leaves a loop. -/
def brk : Stmt := .brk .unknown

/-- Goes on with the next pass of a loop. -/
def cont : Stmt := .cont .unknown

end Stepwise.Build
