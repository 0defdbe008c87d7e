import Mathlib
import Stepwise.Proofs.StaticHeight

/-!
# Expressions in their places

Every expression of a function that has code of its own, with the scope and the supply in which it
was lowered and the address of its code. A constant or a name that is stored or passed on by the
instruction that needs it has no code of its own.

## Main definitions

* `ExprOccurrence`, `ExprPart`: an expression in its place, and the expressions inside it
* `StmtExpr`: the expressions of a statement
* `Definition.Lowers`: the expressions of a function, at every depth
* `ExprOccurrence.Passes`: the code of an argument of a call
-/

namespace Stepwise.Lowering

open Snippet

/-- An expression on its way through lowering: the function and the scope in which it stands, the
supply before it, and the address of its code. -/
structure ExprOccurrence where
  fn : String
  scope : Scope
  supply : Supply
  expr : Expr
  addr : Nat

/-- How many instructions an operator has between its operands. -/
def operandGap : BinaryOp → Nat
  | .and => 2
  | .or => 3
  | _ => 0

/-- The expressions that an expression directly consists of, each with the address of its code. -/
inductive ExprPart : ExprOccurrence → ExprOccurrence → Prop
  | index {fn : String} {scope : Scope} {s : Supply} {base index : Expr} {loc : Location}
    {addr : Nat} :
    ExprPart ⟨fn, scope, s, .member base index loc, addr⟩ ⟨fn, scope, s, index, addr⟩
  | left {fn : String} {scope : Scope} {s : Supply} {op : BinaryOp} {left right : Expr}
    {loc : Location} {addr : Nat} :
    ExprPart ⟨fn, scope, s, .binary op left right loc, addr⟩ ⟨fn, scope, s, left, addr⟩
  | right {fn : String} {scope : Scope} {s s₁ : Supply} {op : BinaryOp} {left right : Expr}
    {loc : Location} {addr : Nat} {code : Code} {ty : Ty} :
    lower fn scope left s = .ok ((code, ty), s₁) →
    ExprPart ⟨fn, scope, s, .binary op left right loc, addr⟩
      ⟨fn, scope, s₁, right, addr + code.size + operandGap op⟩
  | operand {fn : String} {scope : Scope} {s : Supply} {op : UnaryOp} {argument : Expr}
    {prefixed : Bool} {loc : Location} {addr : Nat} : isStep op = false →
    ExprPart ⟨fn, scope, s, .unary op argument prefixed loc, addr⟩ ⟨fn, scope, s, argument, addr⟩
  /-- The index of the element that a step by one changes. -/
  | stepIndex {fn : String} {scope : Scope} {s : Supply} {op : UnaryOp} {base index : Expr}
    {prefixed : Bool} {loc loc' : Location} {addr : Nat} : isStep op = true →
    ExprPart ⟨fn, scope, s, .unary op (.member base index loc') prefixed loc, addr⟩
      ⟨fn, scope, s, index, addr⟩
  /-- The index of the element that an assignment stores into. -/
  | targetIndex {fn : String} {scope : Scope} {s : Supply} {base index right : Expr}
    {loc loc' : Location} {addr : Nat} :
    ExprPart ⟨fn, scope, s, .assign (.member base index loc') right loc, addr⟩
      ⟨fn, scope, s, index, addr⟩
  /-- The right side of an assignment. -/
  | source {fn : String} {scope : Scope} {s s₁ : Supply} {left right : Expr} {loc : Location}
    {addr : Nat} {code : Code} {ty : Ty} : isImmediate right = false →
    lowerIndex fn scope left s = .ok ((code, ty), s₁) →
    ExprPart ⟨fn, scope, s, .assign left right loc, addr⟩
      ⟨fn, scope, s₁, right, addr + code.size⟩
  /-- An argument of a call. The arguments behind it are evaluated before it. -/
  | argument {fn : String} {scope : Scope} {s s₁ : Supply} {callee arg : Expr}
    {pre post : List Expr} {loc : Location} {addr : Nat} {name : String} {sig : Signature}
    {code : Code} : calleeSignature scope callee = .ok (name, sig) →
    lowerArgs fn scope post (sig.params.drop (pre.length + 1)) s = .ok (code, s₁) →
    (pre.length < sig.params.length → ∀ v loc', arg ≠ .literal v loc') →
    ExprPart ⟨fn, scope, s, .call callee (pre ++ arg :: post) loc, addr⟩
      ⟨fn, scope, s₁, arg, addr + code.size⟩

/-- An argument of a call has this code, which starts at this address. -/
inductive ExprOccurrence.Passes : ExprOccurrence → Nat → Nat → Code → Prop
  | intro {fn : String} {scope : Scope} {s s₁ s₂ : Supply} {callee arg : Expr}
    {pre post : List Expr} {loc : Location} {addr : Nat} {name : String} {sig : Signature}
    {before code : Code} : calleeSignature scope callee = .ok (name, sig) →
    lowerArgs fn scope post (sig.params.drop (pre.length + 1)) s = .ok (before, s₁) →
    lowerArgs fn scope (arg :: post) (sig.params.drop pre.length) s = .ok (before ++ code, s₂) →
    Passes ⟨fn, scope, s, .call callee (pre ++ arg :: post) loc, addr⟩ pre.length
      (addr + before.size) code

/-- The expressions of a statement, with whether their values are needed. -/
inductive StmtExpr : Occurrence → Bool → ExprOccurrence → Prop
  | branchTest {site : Site} {d : Draft} {test : Expr} {consequent : Stmt}
    {alternate : Option Stmt} {loc : Location} {addr : Nat} :
    StmtExpr ⟨site, d, .branch test consequent alternate loc, addr⟩ true
      ⟨site.fn, d.scope, d.supply, test, addr⟩
  | whileTest {site : Site} {d : Draft} {test : Expr} {body : Stmt} {loc : Location} {addr : Nat} :
    StmtExpr ⟨site, d, .whileLoop test body loc, addr⟩ true
      ⟨site.fn, d.scope, d.supply.withLabels 2, test, addr⟩
  | doTest {site : Site} {d d' : Draft} {body : Stmt} {test : Expr} {loc : Location} {addr : Nat}
    {bodyCode : Code} :
    lowerStmt (site.inLoop (labelName site.fn "test" (d.supply.labels + 1))
      (labelName site.fn "enddo" (d.supply.labels + 2))) body (d.withLabels 3).inside =
      .ok (bodyCode, d') →
    StmtExpr ⟨site, d, .doLoop body test loc, addr⟩ true
      ⟨site.fn, d.scope, d'.supply, test, addr + bodyCode.size⟩
  | forTest {site : Site} {d d₁ : Draft} {init : Option Stmt} {test : Expr} {update : Option Expr}
    {body : Stmt} {loc : Location} {addr : Nat} {initCode : Code} :
    LoweredInit site.inner d.inside init initCode d₁ →
    StmtExpr ⟨site, d, .forLoop init (some test) update body loc, addr⟩ true
      ⟨site.fn, d₁.scope, d₁.supply.withLabels 3, test, addr + initCode.size⟩
  | forUpdate {site : Site} {d d₁ d' : Draft} {init : Option Stmt} {test : Option Expr}
    {update : Expr} {body : Stmt} {loc : Location} {addr : Nat} {initCode bodyCode : Code}
    {test' : Option Code} {s : Supply} : LoweredInit site.inner d.inside init initCode d₁ →
    LoweredTest site.fn d₁.scope (d₁.supply.withLabels 3) test test' s →
    lowerStmt (site.inLoop (labelName site.fn "next" (d₁.supply.labels + 1))
      (labelName site.fn "endfor" (d₁.supply.labels + 2))) body (d₁.withSupply s).inside =
      .ok (bodyCode, d') →
    StmtExpr ⟨site, d, .forLoop init test (some update) body loc, addr⟩ false
      ⟨site.fn, d₁.scope, d'.supply, update, addr + initCode.size +
        (testCode (labelName site.fn "endfor" (d₁.supply.labels + 2)) test').size + bodyCode.size⟩
  | result {site : Site} {d : Draft} {e : Expr} {loc : Location} {addr : Nat} :
    (∀ v loc', e ≠ .literal v loc') →
    StmtExpr ⟨site, d, .ret (some e) loc, addr⟩ true ⟨site.fn, d.scope, d.supply, e, addr⟩
  | effect {site : Site} {d : Draft} {e : Expr} {loc : Location} {addr : Nat} :
    StmtExpr ⟨site, d, .expr e loc, addr⟩ false ⟨site.fn, d.scope, d.supply, e, addr⟩
  /-- The first value of a variable. At the top level of a function its slot is reserved first. -/
  | initializer {site : Site} {d d₁ : Draft} {decl : Declaration} {pre post : List Declarator}
    {dr : Declarator} {init : Expr} {addr : Nat} {code : Code} :
    decl.declarators = pre ++ dr :: post → declareLocals site decl pre d = .ok (code, d₁) →
    dr.initializer = some init → isImmediate init = false →
    StmtExpr ⟨site, d, .declare decl, addr⟩ true
      ⟨site.fn, d₁.scope, d₁.supply, init, addr + code.size + if site.nested then 0 else 1⟩

end Stepwise.Lowering

namespace Stepwise.Compiler.Definition

open Lowering

/-- The expressions of a function whose code starts at `addr`, at every depth, with whether their
values are needed. -/
inductive Lowers (d : Definition) (addr : Nat) : Bool → ExprOccurrence → Prop
  | stmt {o : Occurrence} {needed : Bool} {x : ExprOccurrence} : d.Contains addr o →
    StmtExpr o needed x → Lowers d addr needed x
  /-- Most expressions whose value is not needed leave one all the same, and it is then dropped. -/
  | dropped {x : ExprOccurrence} : Lowers d addr false x → hasEffect x.expr = false →
    Lowers d addr true x
  | part {needed : Bool} {x y : ExprOccurrence} : Lowers d addr needed x → ExprPart x y →
    Lowers d addr true y

end Stepwise.Compiler.Definition
