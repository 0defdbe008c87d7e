import Mathlib
import Stepwise.Proofs.ExprSimulation

/-!
# Constant folding

The value of a constant expression is computed twice in the system: by the compiler, for the first
contents of a global variable, and by the machine, for the same expression in a function. Here both
are compared. The compiler evaluates both sides of every operator while the code of `&&` and `||`
may skip the right one, so the two agree on values but not on errors behind a skipped side.

## Main definitions

* `RootScope`: the names of functions, and variables that global declarations have laid out
* `Agrees`: a scope in which the names of an expression mean what they mean in the root scope
* `Held`: memory in which the global variables of an expression hold their folded values

## Main results

* `lower_constant`: a constant is lowered, with the type of its value
* `eval_constant`, `runs_constant`: it evaluates to its value, and its code computes it
-/

namespace Stepwise

open Lowering Snippet Reference

/-! ## Names and scopes -/

/-- No operator of an expression may skip its right side. -/
def Expr.isStrict : Expr → Bool
  | .literal _ _ | .ident _ _ => true
  | .binary op l r _ => !isLogical op && l.isStrict && r.isStrict
  | .unary _ a _ _ => a.isStrict
  | .assign l r _ => l.isStrict && r.isStrict
  | .call c args _ => c.isStrict && args.attach.all fun ⟨a, _⟩ => a.isStrict
  | .member b i _ => b.isStrict && i.isStrict

/-- A root scope: functions, and the variables of global declarations, whatever the layout was that
they were added to. -/
inductive RootScope : Scope → Prop
  | functions {scope : Scope} : scope.outer = [] →
    (∀ name v, scope.inner.get? name ≠ some (.variable v)) → RootScope scope
  | declare {scope scope' : Scope} {g g' : GlobalLayout} {decl : Declaration} : RootScope scope →
    g.declare scope decl = .ok (g', scope') → RootScope scope'

/-- The names of an expression mean the same in two scopes. -/
def Agrees (scope scope' : Scope) (e : Expr) : Prop :=
  ∀ name, e.Mentions name → scope'.lookup? name = scope.lookup? name

/-- The global variables of an expression hold their folded values. -/
def Held (scope : Scope) (e : Expr) (globals : Array Value) : Prop :=
  ∀ name v value o, e.Mentions name → scope.lookup? name = some (.variable v) →
    v.value = some value → v.slot = .global o → globals[o]? = some value

/-- Variables that are not arrays lie in the global region and carry a value of their type. -/
def Folds (scope : Scope) : Prop :=
  ∀ name v value, scope.lookup? name = some (.variable v) → v.value = some value →
    value.ty = v.ty ∧ ∃ o, v.slot = .global o

variable {scope : Scope}

/-- The first contents of a variable with an initializer: its value, converted. -/
theorem contents_of_initializer {decl : Declaration} {dr : Declarator} {init : Expr}
    {vs : List Value} {length : Option Nat} {value : Option Value} (harray : decl.isArray = false)
    (hinit : dr.initializer = some init)
    (h : GlobalLayout.contents scope decl dr = .ok (vs, length, value)) :
    ∃ u v, constant scope init = .ok u ∧ convertConstant decl.ty u init.loc = .ok v ∧ vs = [v] := by
  cases GlobalLayout.contents_cases h with
  | array harray' _ => cases harray.symm.trans harray'
  | scalar _ hfirst =>
    rw [Declarator.FirstValue, hinit] at hfirst
    obtain ⟨u, hu, haccepts, hv⟩ := hfirst
    exact ⟨u, _, hu, convertConstant_eq_ok.mpr ⟨haccepts, hv⟩, rfl⟩

/-- The value that a variable carries is one of its contents. -/
theorem mem_of_contents {decl : Declaration} {dr : Declarator} {vs : List Value}
    {length : Option Nat} {w : Value}
    (h : GlobalLayout.contents scope decl dr = .ok (vs, length, some w)) : w ∈ vs := by
  cases GlobalLayout.contents_cases h with
  | scalar _ _ => exact List.mem_singleton_self _

theorem folds_of_declareAll {decl : Declaration} {drs : List Declarator} {g g' : GlobalLayout}
    {scope' : Scope} (hty : decl.ty ≠ .void) (hs : Folds scope)
    (h : GlobalLayout.declareAll decl g scope drs = .ok (g', scope')) : Folds scope' := by
  induction drs generalizing g scope with
  | nil =>
    cases h
    exact hs
  | cons dr rest ih =>
    simp only [GlobalLayout.declareAll, bind_eq_ok] at h
    obtain ⟨⟨g₁, scope₁⟩, hone, hrest⟩ := h
    obtain ⟨vs, length, value, hc, hd, -⟩ := GlobalLayout.declareOne_eq_ok hone
    refine ih ?_ hrest
    intro name v w hv hw
    rw [Scope.lookup?_of_declare hd] at hv
    split at hv
    · cases hv
      simp only at hw
      subst hw
      exact ⟨(GlobalLayout.contents_eq_ok hty hc).2.2 w (mem_of_contents hc), _, rfl⟩
    · exact hs name v w hv hw

theorem RootScope.folds (h : RootScope scope) : Folds scope := by
  induction h with
  | functions houter hnone =>
    intro name v value hv _
    rw [Scope.lookup?_eq, houter, List.findSome?_nil, Option.or_none] at hv
    exact absurd hv (hnone name v)
  | declare _ hd ih =>
    obtain ⟨hty, hall⟩ := Compiler.globalsDeclare_eq_ok.mp hd
    exact folds_of_declareAll hty ih hall

/-! ## Constants are lowered -/

section Lowering

variable {scope scope' : Scope} {fn : String} {e : Expr} {v : Value}

variable {loc : Location}

/-- A name with a value is lowered to the variable that it stands for. -/
theorem constant_ident {name : String} (h : constant scope (.ident name loc) = .ok v) :
    ∃ x, scope.lookup? name = some (.variable x) ∧ x.isArray = false ∧ x.value = some v := by
  simp only [constant, bind_eq_ok, locate_eq_ok, Scope.resolve_eq_ok] at h
  obtain ⟨x | f, hsymbol, h⟩ := h
  · simp only at h
    split at h
    · simp [at_ne_ok] at h
    next harray =>
      split at h
      next value hvalue =>
        cases h
        exact ⟨x, hsymbol, by simpa using harray, hvalue⟩
      · simp [at_ne_ok] at h
  · simp [at_ne_ok] at h

theorem scalarOperand_of_lookup? {name : String} {x : Variable}
    (h : scope.lookup? name = some (.variable x)) (harray : x.isArray = false) :
    scalarOperand scope name loc = .ok (x.slot.operand none, x.ty) := by
  have hresolve : scope.resolve name = .ok (.variable x) := Scope.resolve_eq_ok.mpr h
  simp [scalarOperand, hresolve, Mistake.locate, harray, bind, Except.bind]

theorem constEval_eq_ok {α : Type} {x : Except ArithmeticError α} {a : α} :
    constEval loc x = .ok a ↔ x = .ok a := by
  cases x <;> simp [constEval]

theorem constEval_eq_error {x : Except ArithmeticError Value} {err : ArithmeticError}
    {loc' : Location} (h : constEval loc x = .error (.mistake (.constEval err) loc')) :
    x = .error err := by
  cases x with
  | ok a => cases h
  | error e =>
    cases h
    rfl

/-- The parts of a constant operator are constants. -/
theorem constant_binary {op : BinaryOp} {l r : Expr}
    (h : constant scope (.binary op l r loc) = .ok v) :
    ∃ a b ty, constant scope l = .ok a ∧ constant scope r = .ok b ∧
      binaryType op a.ty b.ty = .ok ty ∧ fold op a b = .ok v := by
  simp only [constant, bind_eq_ok, locate_eq_ok, constEval_eq_ok] at h
  obtain ⟨a, ha, b, hb, ty, hty, h⟩ := h
  exact ⟨a, b, ty, ha, hb, hty, h⟩

theorem constant_unary {op : UnaryOp} {a : Expr} {prefixed : Bool}
    (h : constant scope (.unary op a prefixed loc) = .ok v) :
    isStep op = false ∧ ∃ x ty, constant scope a = .ok x ∧ unaryType op x.ty = .ok ty ∧
      foldUnary op x = .ok v := by
  simp only [constant, bind_eq_ok, locate_eq_ok] at h
  obtain ⟨x, hx, ty, hty, h⟩ := h
  cases op with
  | neg => exact ⟨rfl, x, ty, hx, hty, constEval_eq_ok.mp h⟩
  | pos => exact ⟨rfl, x, ty, hx, hty, by cases h; rfl⟩
  | not => exact ⟨rfl, x, ty, hx, hty, by cases h; rfl⟩
  | inc | dec => simp [at_ne_ok] at h

@[simp]
theorem withLabels_withLabels (s : Supply) (n m : Nat) :
    (s.withLabels n).withLabels m = s.withLabels (n + m) := by
  simp [Supply.withLabels, Nat.add_assoc]

/-- A logical operator draws labels only. -/
theorem exists_shortCircuit (fn : String) (op : BinaryOp) (l r : Code) (s : Supply) :
    ∃ code n, shortCircuit fn op l r s = .ok (code, s.withLabels n) := by
  unfold shortCircuit
  split
  · exact ⟨_, 3, rfl⟩
  · exact ⟨_, 4, rfl⟩

/-- **A constant is lowered**, with the type of its value, and draws nothing but labels. -/
theorem lower_constant (hs : Folds scope) (ha : Agrees scope scope' e)
    (h : constant scope e = .ok v) (fn : String) (s : Supply) :
    ∃ code n, lower fn scope' e s = .ok ((code, v.ty), s.withLabels n) := by
  induction e using Expr.induct generalizing v s with
  | literal w loc =>
    cases h
    exact ⟨_, 0, rfl⟩
  | ident name loc =>
    obtain ⟨x, hx, harray, hvalue⟩ := constant_ident h
    obtain ⟨hty, -⟩ := hs name x v hx hvalue
    have hx' : scope'.lookup? name = some (.variable x) := by rw [ha name (.ident loc), hx]
    refine ⟨_, 0, atLoc_eq_ok.mpr ⟨Code.ofInstrs [.push (x.slot.operand none)], ?_, rfl⟩⟩
    simp only [stateT_bind_eq_ok, stateT_lift_eq_ok, stateT_pure_eq_ok]
    exact ⟨_, _, ⟨_, scalarOperand_of_lookup? hx' harray, rfl⟩, by rw [hty]; rfl⟩
  | binary op l r loc ihl ihr =>
    obtain ⟨a, b, ty, hl, hr, hty, hfold⟩ := constant_binary h
    obtain ⟨lcode, n, hlower⟩ := ihl (fun name hm => ha name (.left hm)) hl s
    obtain ⟨rcode, m, hrlower⟩ := ihr (fun name hm => ha name (.right hm)) hr (s.withLabels n)
    have hv := ty_of_fold hty hfold
    subst hv
    -- the code of a logical operator draws labels besides those of its operands
    by_cases hlog : isLogical op = true
    · obtain ⟨code, k, hcode⟩ := exists_shortCircuit fn op lcode rcode (s.withLabels (n + m))
      rw [withLabels_withLabels] at hrlower
      refine ⟨Code.located loc code, n + m + k, ?_⟩
      rw [lower, atLoc_eq_ok]
      refine ⟨code, ?_, rfl⟩
      simp only [stateT_bind_eq_ok, stateT_lift_eq_ok, locate_eq_ok]
      refine ⟨_, _, hlower, _, _, hrlower, _, _, ⟨_, hty, rfl⟩, ?_⟩
      rw [if_pos hlog]
      simp only [stateT_bind_eq_ok, stateT_pure_eq_ok]
      exact ⟨_, _, hcode, by rw [withLabels_withLabels]⟩
    · refine ⟨Code.located loc (binaryCode op lcode rcode), n + m, ?_⟩
      rw [lower, atLoc_eq_ok]
      refine ⟨_, ?_, rfl⟩
      simp only [stateT_bind_eq_ok, stateT_lift_eq_ok, locate_eq_ok]
      refine ⟨_, _, hlower, _, _, hrlower, _, _, ⟨_, hty, rfl⟩, ?_⟩
      rw [if_neg hlog, stateT_pure_eq_ok, withLabels_withLabels]
  | unary op a prefixed loc ih _ =>
    obtain ⟨hstep, x, ty, hx, hty, hfold⟩ := constant_unary h
    obtain ⟨code, n, hlower⟩ := ih (fun name hm => ha name (.argument hm)) hx s
    have hv := ty_of_foldUnary hty hfold
    subst hv
    refine ⟨Code.located loc (unaryCode op code), n, ?_⟩
    rw [lower_unary, atLoc_eq_ok, if_neg (by simp [hstep])]
    refine ⟨_, ?_, rfl⟩
    simp only [stateT_bind_eq_ok, stateT_lift_eq_ok, stateT_pure_eq_ok, locate_eq_ok]
    exact ⟨_, _, hlower, _, _, ⟨_, hty, rfl⟩, rfl⟩
  | assign l r loc => simp [constant, at_ne_ok] at h
  | call c args loc => simp [constant, at_ne_ok] at h
  | member b i loc => simp [constant, at_ne_ok] at h

end Lowering

/-! ## Constants are computed -/

namespace Reference

variable {σ : Type} {scope scope' : Scope} {e : Expr} {st : Store σ} {v : Value}

/-- A store in which the variables of an expression have their folded values. -/
def Store.Recalls (st : Store σ) (scope : Scope) (e : Expr) : Prop :=
  ∀ name x u, e.Mentions name → scope.lookup? name = some (.variable x) → x.value = some u →
    ∃ row, st.find? name = some row ∧ row.ty = x.ty ∧ row.values = [u]

theorem exists_recalls (hs : Folds scope) (he : e.isCallFree = true) (w : σ) :
    ∃ st : Store σ, st.world = w ∧ st.Recalls scope e := by
  obtain ⟨t, ht⟩ := exists_rows (fun name row => ∃ x u, scope.lookup? name = some (.variable x) ∧
    x.value = some u ∧ row.ty = x.ty ∧ row.values = [u]) e.names
  refine ⟨⟨t, [], w⟩, rfl, fun name x u hm hx hu => ?_⟩
  have hrow : ∀ u' ∈ [u], u'.ty = x.ty := by simpa using (hs name x u hx hu).1
  obtain ⟨row, hrow, x', u', hx', hu', hvalues⟩ :=
    ht name (hm.mem_names he) ⟨⟨x.ty, [u], hrow⟩, x, u, hx, hu, rfl, rfl⟩
  cases hx.symm.trans hx'
  cases hu.symm.trans hu'
  exact ⟨row, hrow, hvalues⟩

/-- An expression calls nothing and changes nothing, and all its variables have been folded. -/
def Folded (scope : Scope) (e : Expr) : Prop :=
  e.isCallFree = true ∧ (∀ name, ¬e.Assigns name) ∧ ∀ name, e.Mentions name →
    ∃ x u, scope.lookup? name = some (.variable x) ∧ x.value = some u

theorem folded_binary {op : BinaryOp} {l r : Expr} {loc : Location} (hl : Folded scope l)
    (hr : Folded scope r) : Folded scope (.binary op l r loc) := by
  refine ⟨by simp [Expr.isCallFree, hl.1, hr.1], fun name hw => ?_, fun name hm => ?_⟩
  · cases hw with
    | left hw => exact hl.2.1 name hw
    | right hw => exact hr.2.1 name hw
  · cases hm with
    | left hm => exact hl.2.2 name hm
    | right hm => exact hr.2.2 name hm

theorem folded_unary {op : UnaryOp} {a : Expr} {prefixed : Bool} {loc : Location}
    (hop : isStep op = false) (ha : Folded scope a) :
    Folded scope (.unary op a prefixed loc) := by
  refine ⟨ha.1, fun name hw => ?_, fun name hm => ?_⟩
  · cases hw with
    | step hstep _ => cases hop.symm.trans hstep
    | argument hw => exact ha.2.1 name hw
  · cases hm with
    | argument hm => exact ha.2.2 name hm

theorem folded_of_constant (h : constant scope e = .ok v) : Folded scope e := by
  induction e using Expr.induct generalizing v with
  | literal u loc => exact ⟨rfl, nofun, nofun⟩
  | ident name loc =>
    obtain ⟨x, hx, -, hu⟩ := constant_ident h
    refine ⟨rfl, nofun, fun name' hm => ?_⟩
    cases hm
    exact ⟨x, v, hx, hu⟩
  | binary op l r loc ihl ihr =>
    obtain ⟨a, b, -, ha, hb, -⟩ := constant_binary h
    exact folded_binary (ihl ha) (ihr hb)
  | unary op a prefixed loc ih _ =>
    obtain ⟨hstep, x, -, hx, -⟩ := constant_unary h
    exact folded_unary hstep (ih hx)
  | assign l r loc => simp [constant, at_ne_ok] at h
  | call c args loc => simp [constant, at_ne_ok] at h
  | member b i loc => simp [constant, at_ne_ok] at h

/-- **A constant evaluates to its value.** Operators that may skip their right side give what both
sides together would give, since constants have no effects. -/
theorem eval_constant (Γ : Context σ) (call : Caller σ) (h : constant scope e = .ok v)
    (hst : st.Recalls scope e) : eval Γ call e st = .ok v st := by
  induction e using Expr.induct generalizing v with
  | literal u loc =>
    cases h
    rw [eval]
    rfl
  | ident name loc =>
    obtain ⟨x, hx, -, hu⟩ := constant_ident h
    obtain ⟨row, hrow, -, hvalues⟩ := hst name x v (.ident loc) hx hu
    simp [eval, fetch, hrow, Row.get?, hvalues]
  | binary op l r loc ihl ihr =>
    obtain ⟨a, b, -, ha, hb, -, hfold⟩ := constant_binary h
    have hleft := ihl ha fun name x u hm => hst name x u (.left hm)
    have hright := ihr hb fun name x u hm => hst name x u (.right hm)
    -- a right operand that is skipped has a value too, but it does not matter
    cases op with
    | and =>
      cases hfold
      rw [eval_and]
      simp only [bind, EStateM.bind, hleft]
      cases a.isZero <;> simp [hright, EStateM.bind, pure, EStateM.pure]
    | or =>
      cases hfold
      rw [eval_or]
      simp only [bind, EStateM.bind, hleft]
      cases a.isZero <;> simp [hright, EStateM.bind, pure, EStateM.pure]
    | _ =>
      rw [eval_binary Γ call rfl]
      simp only [bind, EStateM.bind, hleft, hright, hfold]
      rfl
  | unary op a prefixed loc ih _ =>
    obtain ⟨hstep, x, -, hx, -, hfold⟩ := constant_unary h
    rw [eval_unary Γ call hstep]
    simp only [bind, EStateM.bind, ih hx fun name y u hm => hst name y u (.argument hm), hfold]
    rfl
  | assign l r loc => simp [constant, at_ne_ok] at h
  | call c args loc => simp [constant, at_ne_ok] at h
  | member b i loc => simp [constant, at_ne_ok] at h

end Reference

/-- The content of a slot of the global region. -/
theorem State.read_global {s : State} {o : Nat} {v : Value} (h : s.globals[o]? = some v) :
    s.read (.ptr ⟨.global, o, none⟩) = .ok v := by
  have hslot : s.slot? .global o = some v := by simp [slot?, region, h]
  simp [read, locate, indexValue, origin, hslot, bind, Except.bind, Except.map]

namespace Target

variable {σ : Type} {T : Target σ} {frame : FrameLayout} {addr : Nat} {st : State} {w : σ}
  {scope scope' : Scope} {fn : String} {e : Expr} {code : Code} {ty : Ty} {s s' : Supply}

/-- While the code of a constant runs, memory and the store stay as they were. -/
def foldAccord (T : Target σ) {store : Store σ} (hs : Folds scope) (ha : Agrees scope scope' e)
    (hstore : store.Recalls scope e) (hheld : Held scope e st.globals) : T.Accord frame scope' where
  Sees name := e.Mentions name ∧ ∃ x u, scope.lookup? name = some (.variable x) ∧ x.value = some u
  Writes _ := False
  Calls := False
  Stop _ _ _ := True
  At pc top store' s := store' = store ∧ ∃ registers, s = { st with
    pc := pc, registers := registers, stack := top.foldr (fun v stack => stack.push v) st.stack }
  pc_eq := by
    rintro pc top _ _ ⟨-, registers, rfl⟩
    rfl
  arithmetic _ _ _ _ := trivial
  move := by
    rintro pc top _ _ ⟨rfl, registers, rfl⟩ pc' registers' -
    exact ⟨rfl, registers', rfl⟩
  push := by
    rintro pc top _ _ ⟨rfl, registers, rfl⟩ pc' registers' v -
    exact ⟨rfl, registers', rfl⟩
  pop := by
    rintro pc v top _ _ ⟨rfl, registers, rfl⟩
    exact ⟨_, rfl, fun pc' registers' _ => ⟨rfl, registers', rfl⟩⟩
  -- a name means the same variable in both scopes, and its slot holds the folded value
  fetch := by
    rintro pc top _ _ name y index i ⟨rfl, registers, rfl⟩ ⟨hm, x, u, hx, hu⟩ hy hindex
    rw [ha name hm, hx] at hy
    cases hy
    obtain ⟨row, hrow, hty, hvalues⟩ := hstore name y u hm hx hu
    obtain ⟨-, o, ho⟩ := hs name y u hx hu
    rw [← hty]
    have hstart : y.slot.start? frame = some (.global, (o : Int)) := by
      rw [ho]
      rfl
    refine fetch_of_carries T.labels (fun k v hv => ?_) hstart hrow hindex
    rw [hvalues, List.getElem?_singleton] at hv
    split at hv
    next hk =>
      cases hv
      simp [State.slot?, State.region, State.origin, hk, hheld name y u o hm hx hu ho]
    · cases hv
  put _ hw := hw.elim

/-- The code of an expression whose variables have been folded does what the expression means. -/
theorem simulates_folded {store : Store σ} (Γ : Context σ) (call : Caller σ) (hs : Folds scope)
    (ha : Agrees scope scope' e) (hfolded : Folded scope e)
    (hl : lower fn scope' e s = .ok ((code, ty), s')) (hp : Placed T.program frame addr code)
    (hpc : st.pc = addr) (hheld : Held scope e st.globals) (hstore : store.Recalls scope e) :
    T.Simulates (fun _ _ _ => True) 0 (eval Γ call e store) st store.world fun v store' st' =>
      v.ty = ty ∧ store' = store ∧ ∃ registers, st' = { st with
        pc := addr + code.size, registers := registers, stack := st.stack.push v } := by
  obtain ⟨hfree, hpure, hseen⟩ := hfolded
  subst hpc
  have hat : Accord.At (T.foldAccord hs ha hstore hheld : T.Accord frame scope') st.pc [] store st :=
    ⟨rfl, st.registers, rfl⟩
  exact (T.foldAccord hs ha hstore hheld).evaluates False.elim e (fun _ => hfree)
    (fun name hm => ⟨hm, hseen name hm⟩) (fun name hw => hpure name hw) hl False.elim hp hat

/-- **The code of a constant computes its value.** -/
theorem runs_constant {v : Value} (hs : Folds scope) (ha : Agrees scope scope' e)
    (h : constant scope e = .ok v) (hl : lower fn scope' e s = .ok ((code, ty), s'))
    (hp : Placed T.program frame addr code) (hpc : st.pc = addr) (hheld : Held scope e st.globals) :
    ∃ k registers, T.Runs k st w
      { st with pc := addr + code.size, registers := registers, stack := st.stack.push v } w := by
  have hfolded := folded_of_constant h
  obtain ⟨store, rfl, hstore⟩ := exists_recalls hs hfolded.1 w
  have hsim := simulates_folded ⟨[], .empty, .empty⟩ (fun _ _ => throw .stuck) hs ha hfolded hl hp
    hpc hheld hstore
  rw [eval_constant _ _ h hstore] at hsim
  obtain ⟨k, _, hrun, -, -, registers, rfl⟩ := hsim
  exact ⟨k, registers, hrun⟩

/-- The machine runs into a fault and leaves the world alone. -/
def Breaks (T : Target σ) (st : State) (w : σ) (e : Fault) : Prop :=
  ∃ k st', T.Runs k st w st' w ∧ T.Fails st' w e

theorem Breaks.after {k : Nat} {st' : State} {e : Fault} (hrun : T.Runs k st w st' w)
    (h : T.Breaks st' w e) : T.Breaks st w e := by
  obtain ⟨k', st'', hrun', hfail⟩ := h
  exact ⟨k + k', st'', hrun.trans hrun', hfail⟩

/-- A name never fails to fold over an operator. -/
theorem constant_ident_ne {name : String} {loc loc' : Location} {err : ArithmeticError} :
    constant scope (.ident name loc) ≠ .error (.mistake (.constEval err) loc') := by
  intro h
  simp only [constant, Scope.resolve] at h
  cases hx : scope.lookup? name with
  | none => simp [hx, Mistake.locate, bind, Except.bind] at h
  | some symbol =>
    rcases symbol with x | f
    · simp only [hx, Mistake.locate, bind, Except.bind, Mistake.at] at h
      split at h
      · cases h
      · split at h <;> cases h
    · simp [hx, Mistake.locate, bind, Except.bind, Mistake.at] at h

/-- A constant has one type in lowered code: that of its value. -/
theorem ty_of_lower_constant {v : Value} (hs : Folds scope) (ha : Agrees scope scope' e)
    (h : constant scope e = .ok v) (hl : lower fn scope' e s = .ok ((code, ty), s')) :
    ty = v.ty := by
  obtain ⟨code', n, hl'⟩ := lower_constant hs ha h fn s
  cases hl.symm.trans hl'
  rfl

/-- The code of an expression whose variables have been folded breaks as its evaluation does. -/
theorem breaks_folded {err : ArithmeticError} (hs : Folds scope) (ha : Agrees scope scope' e)
    (hfolded : Folded scope e)
    (hl : lower fn scope' e s = .ok ((code, ty), s')) (hp : Placed T.program frame addr code)
    (hpc : st.pc = addr) (hheld : Held scope e st.globals)
    (h : ∀ (Γ : Context σ) call (store : Store σ), store.Recalls scope e →
      eval Γ call e store = .error (.fault (.arithmetic err)) store) :
    T.Breaks st w (.arithmetic err) := by
  obtain ⟨store, rfl, hstore⟩ := exists_recalls hs hfolded.1 w
  have hsim := simulates_folded ⟨[], .empty, .empty⟩ (fun _ _ => throw .stuck) hs ha hfolded hl hp
    hpc hheld hstore
  rw [h _ _ store hstore] at hsim
  obtain ⟨k, st', hrun, hfail, -⟩ := hsim
  exact ⟨k, st', hrun, hfail⟩

/-- **The code of an expression that does not fold for an arithmetic error runs into this error.**
Every operator computes both of its sides here, in the order in which they are folded. -/
theorem breaks_constant {err : ArithmeticError} {loc : Location} (hs : Folds scope)
    (ha : Agrees scope scope' e) (hstrict : e.isStrict = true)
    (h : constant scope e = .error (.mistake (.constEval err) loc))
    (hl : lower fn scope' e s = .ok ((code, ty), s')) (hp : Placed T.program frame addr code)
    (hpc : st.pc = addr) (hheld : Held scope e st.globals) : T.Breaks st w (.arithmetic err) := by
  induction e using Expr.induct generalizing s code ty s' addr st with
  | literal u loc => cases h
  | ident name loc => exact absurd h constant_ident_ne
  | binary op l r loc ihl ihr =>
    simp only [Expr.isStrict, Bool.and_eq_true, Bool.not_eq_true'] at hstrict
    obtain ⟨⟨hlog, hsl⟩, hsr⟩ := hstrict
    have hal : Agrees scope scope' l := fun name hm => ha name (.left hm)
    have har : Agrees scope scope' r := fun name hm => ha name (.right hm)
    have hheldl : Held scope l st.globals := fun name x u o hm => hheld name x u o (.left hm)
    have hheldr : Held scope r st.globals := fun name x u o hm => hheld name x u o (.right hm)
    have hlower := hl
    obtain ⟨c, rfl, hc⟩ := lowered_of_lower hl
    cases hc with
    | and => cases hlog
    | or => cases hlog
    | binary _ hll hlr hty =>
      have hparts := hp
      rw [placed_located] at hparts
      simp only [binaryCode, placed_append] at hparts
      rcases bind_eq_error.mp h with h | ⟨a, hca, h⟩
      · exact ihl hal hsl h hll hparts.1.1.1 hpc hheldl
      rcases bind_eq_error.mp h with h | ⟨b, hcb, h⟩
      · obtain ⟨k, registers, hrun⟩ := runs_constant (w := w) hs hal hca hll hparts.1.1.1 hpc hheldl
        exact .after hrun (ihr har hsr h hlr hparts.1.1.2 rfl hheldr)
      -- the types of both sides are those that the compiler has found
      obtain rfl := ty_of_lower_constant hs hal hca hll
      obtain rfl := ty_of_lower_constant hs har hcb hlr
      rw [hty] at h
      have hfold : fold op a b = .error err := constEval_eq_error h
      refine breaks_folded hs ha ?_ hlower hp hpc hheld fun Γ call store hstore => ?_
      · exact folded_binary (folded_of_constant hca) (folded_of_constant hcb)
      · rw [eval_binary Γ call hlog]
        simp only [bind, EStateM.bind, hfold,
          eval_constant Γ call hca fun name x u hm => hstore name x u (.left hm),
          eval_constant Γ call hcb fun name x u hm => hstore name x u (.right hm)]
        rfl
  | unary op a prefixed loc ih _ =>
    rw [Expr.isStrict] at hstrict
    have hlower := hl
    obtain ⟨c, rfl, hc⟩ := lowered_of_lower hl
    have haa : Agrees scope scope' a := fun name hm => ha name (.argument hm)
    have hhelda : Held scope a st.globals := fun name x u o hm => hheld name x u o (.argument hm)
    cases hc with
    | step hop hstep hty =>
      -- only a variable is stepped, and it does not fail to fold over an operator
      cases hstep with
      | scalar hsrc =>
        rcases bind_eq_error.mp h with h | ⟨x, hx, h⟩
        · exact absurd h constant_ident_ne
        · obtain ⟨y, hy, -, hvalue⟩ := constant_ident hx
          obtain ⟨y', hy', -, -, rfl⟩ := scalarOperand_eq_ok hsrc
          rw [ha _ (.argument (.ident _)), hy] at hy'
          cases hy'
          rw [(hs _ y x hy hvalue).1, hty] at h
          cases op with
          | neg | pos | not => cases hop
          | inc | dec => cases h
      | element => cases h
    | unary hstep hla hty =>
      have hpart := hp
      rw [placed_located] at hpart
      simp only [unaryCode, placed_append] at hpart
      rcases bind_eq_error.mp h with h | ⟨x, hx, h⟩
      · exact ih haa hstrict h hla hpart.1 hpc hhelda
      obtain rfl := ty_of_lower_constant hs haa hx hla
      rw [hty] at h
      cases op with
      | neg =>
        have hfold : foldUnary .neg x = .error err := constEval_eq_error h
        refine breaks_folded hs ha (folded_unary rfl (folded_of_constant hx)) hlower hp hpc hheld
          fun Γ call store hstore => ?_
        rw [eval_unary Γ call rfl]
        simp only [bind, EStateM.bind, hfold,
          eval_constant Γ call hx fun name y u hm => hstore name y u (.argument hm)]
        rfl
      | pos | not => cases h
      | inc | dec => cases hstep
  | assign l r loc => cases h
  | call c args loc => cases h
  | member b i loc => cases h

end Target

end Stepwise
