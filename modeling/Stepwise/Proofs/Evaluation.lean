import Mathlib
import Stepwise.Machine.Basic
import Stepwise.Proofs.Compilation

/-!
# The meaning of expressions

An expression is evaluated on its tree, without code, addresses or a stack. A variable is a row of
cells of one type, and a store into a cell converts to that type; an array is a row as long as it was
declared. Names mean what the innermost scope that has them says. Operands are evaluated from left
to right, arguments from the last to the first. What a call of a compiled function does is a
parameter of the evaluation.

## Main definitions

* `Row`, `Store`: variables, and all that a program can change
* `eval`, `evalArgs`: expressions and the arguments of calls
-/

namespace Stepwise.Reference

open Lowering Compiler

/-! ## Variables -/

/-- The cells of a variable, all of one type. -/
structure Row where
  ty : Ty
  values : List Value
  typed : ∀ v ∈ values, v.ty = ty

namespace Row

/-- The content of a cell. -/
def get? (r : Row) (i : Int) : Option Value := if 0 ≤ i then r.values[i.toNat]? else none

/-- The row with another value in a cell. -/
def set (r : Row) (i : Nat) (w : Value) (h : w.ty = r.ty) : Row where
  ty := r.ty
  values := r.values.set i w
  typed v hv := by
    rcases List.mem_or_eq_of_mem_set hv with hv | rfl
    · exact r.typed v hv
    · exact h

end Row

/-- A cell of a variable. -/
structure Place where
  name : String
  index : Int

/-- All that a program can change: the global variables, those of the running call, scope by scope
from the innermost outward, and the world of the host. -/
structure Store (σ : Type) where
  globals : Table Row
  locals : List (Table Row)
  world : σ

namespace Store

variable {σ : Type}

/-- The variable that a name means. -/
def find? (st : Store σ) (name : String) : Option Row :=
  (st.locals.findSome? (·.get? name)).or (st.globals.get? name)

/-- Scopes with the innermost variable of a name replaced. -/
def replace? (name : String) (row : Row) : List (Table Row) → Option (List (Table Row))
  | [] => none
  | t :: rest =>
    if t.contains name then some (t.insert name row :: rest)
    else (replace? name row rest).map (t :: ·)

/-- The store with the variable that a name means replaced. -/
def assign (st : Store σ) (name : String) (row : Row) : Store σ :=
  match replace? name row st.locals with
  | some locals => { st with locals := locals }
  | none => { st with globals := st.globals.insert name row }

end Store

/-! ## Evaluation -/

/-- Why evaluation stops before its end. -/
inductive Stop where
  /-- The program has made a mistake that the machine reports with this fault. -/
  | fault (cause : Fault)
  /-- An index lies outside its array. -/
  | outside
  /-- A function that should return a value has ended without a return. -/
  | noReturn
  /-- The bound on calls and passes of loops is used up. -/
  | outOfFuel
  /-- The tree has no meaning. -/
  | stuck

/-- An evaluation. If it stops, the store stays as it then is. -/
abbrev Eval (σ : Type) := EStateM Stop (Store σ)

/-- What does not change while a program runs: its functions, the declared host functions and those
that the host has. -/
structure Context (σ : Type) where
  functions : List Function
  declared : Table HostDecl
  hosts : Table (HostFunction σ)

/-- What a function call means, given the function and the arguments. -/
abbrev Caller (σ : Type) := Function → List Value → Eval σ (Option Value)

section Evaluation

variable {σ α : Type}

/-- A result of the machine's arithmetic or of a conversion. -/
def ofFault (r : Except Fault α) : Eval σ α :=
  match r with
  | .ok a => pure a
  | .error e => throw (.fault e)

/-- A value converted to a type. -/
def convert (ty : Ty) (v : Value) : Eval σ Value := ofFault (liftConversion (coerce ty v))

/-- The content of a cell. -/
def fetch (p : Place) : Eval σ Value := fun st =>
  match st.find? p.name with
  | none => .error .stuck st
  | some row =>
    match row.get? p.index with
    | some v => .ok v st
    | none => .error .outside st

/-- Stores a value into a cell, converted to its type, and gives what is stored. -/
def put (p : Place) (v : Value) : Eval σ Value := fun st =>
  match st.find? p.name with
  | none => .error .stuck st
  | some row =>
    if (row.get? p.index).isSome then
      match h : coerce row.ty v with
      | .ok w => .ok w (st.assign p.name (row.set p.index.toNat w (ty_of_coerce h)))
      | .error e => .error (.fault (.conversion e)) st
    else .error .outside st

/-- The cell that an expression names, given the evaluation of its index. -/
def placeOf (e : Expr) (index : Eval σ Value) : Eval σ Place :=
  match e with
  | .ident name _ => pure ⟨name, 0⟩
  | .member (.ident name _) _ _ => do
    match (← index).toInt? with
    | some i => return ⟨name, i.toInt⟩
    | none => throw .stuck
  | _ => throw .stuck

/-- A step by one on a cell: gives the new value if the operator stands in front, else the old
one. -/
def stepPlace (op : UnaryOp) (prefixed : Bool) (p : Place) : Eval σ Value := do
  let old ← fetch p
  let new ← put p (← ofFault (liftArithmetic (increment (stepCode op) old)))
  return if prefixed then new else old

/-- The result of an operator on a value. -/
def applyUnary (op : UnaryOp) (v : Value) : Eval σ Value :=
  match op with
  | .neg => ofFault (liftArithmetic (alu .sub (.int 0) v))
  | .pos => pure v
  | .not => pure (.bool v.isZero)
  | .inc | .dec => throw .stuck

/-- What a name means as a function. -/
inductive Callee where
  | compiled (f : Function)
  | host (d : HostDecl)

/-- The function that an expression names. -/
def calleeOf (Γ : Context σ) (e : Expr) : Eval σ Callee :=
  match e with
  | .ident name _ =>
    match Γ.functions.find? (·.name == name), Γ.declared.get? name with
    | some f, _ => pure (.compiled f)
    | none, some d => pure (.host d)
    | none, none => throw .stuck
  | _ => throw .stuck

/-- The types that a function converts its arguments to. -/
def Callee.params : Callee → List Ty
  | .compiled f => (namedParams f.parameters).map Prod.fst
  | .host d => d.params

/-- Lets the host compute a result. -/
def callHost (Γ : Context σ) (name : String) (args : List Value) : Eval σ Value := fun st =>
  match Γ.hosts.get? name with
  | none => .error (.fault (.unregistered name)) st
  | some f => .ok (f args st.world).1 { st with world := (f args st.world).2 }

/-- A call for its value. -/
def callValue (Γ : Context σ) (call : Caller σ) (callee : Callee) (args : List Value) :
    Eval σ Value :=
  match callee with
  | .compiled f => do
    match ← call f args with
    | some v => return v
    | none => throw .stuck
  | .host d => do convert d.ret (← callHost Γ d.name args)

mutual

/-- The value of an expression. -/
def eval (Γ : Context σ) (call : Caller σ) : Expr → Eval σ Value
  | .literal v _ => pure v
  | .ident name _ => fetch ⟨name, 0⟩
  | .member base index loc => do fetch (← placeOf (.member base index loc) (eval Γ call index))
  | .binary op left right _ => do
    let a ← eval Γ call left
    match op with
    | .and => if a.isZero then return .bool false else return .bool (!(← eval Γ call right).isZero)
    | .or => if a.isZero then return .bool (!(← eval Γ call right).isZero) else return .bool true
    | op => do
      let b ← eval Γ call right
      ofFault (liftArithmetic (fold op a b))
  | .unary op argument prefixed _ =>
    if isStep op then do
      let index := match argument with
        | .member _ index _ => eval Γ call index
        | _ => throw .stuck
      stepPlace op prefixed (← placeOf argument index)
    else do applyUnary op (← eval Γ call argument)
  | .assign left right _ => do
    let index := match left with
      | .member _ index _ => eval Γ call index
      | _ => throw .stuck
    let p ← placeOf left index
    put p (← eval Γ call right)
  | .call callee args _ => do
    let f ← calleeOf Γ callee
    callValue Γ call f (← evalArgs Γ call args f.params)

/-- The values of arguments, the last one first. Those that have a parameter are converted to its
type. -/
def evalArgs (Γ : Context σ) (call : Caller σ) : List Expr → List Ty → Eval σ (List Value)
  | [], _ => pure []
  | arg :: rest, params => do
    let vs ← evalArgs Γ call rest params.tail
    let v ← eval Γ call arg
    match params.head? with
    | some ty => return (← convert ty v) :: vs
    | none => return v :: vs

end

end Evaluation

end Stepwise.Reference
