import Mathlib
import Stepwise.Proofs.Correspondence

/-!
# Expressions compiled twice

Lowering an expression, and lowering it with its places moved and another global region, go in step:
one lemma for each construct, then induction on the expression.

## Main definitions

* `Supply.Twin`: supplies that have given out the same labels
* `TypedTwin`: codes that correspond, with one type

## Main results

* `inStep_lower`, `inStep_lowerEffect`: expressions for their value and for their effect
-/

namespace Stepwise

section Constants

variable {φ : Location → Location} {D : Anchors}

theorem agree_convertConstant (ty : Ty) (v : Value) (loc : Location) :
    Agree φ (fun w w' => w = w') (convertConstant ty v loc) (convertConstant ty v (φ loc)) := by
  unfold convertConstant
  split
  next haccepts =>
    obtain ⟨w, hw⟩ := exists_coerce haccepts
    rw [hw]
    exact .ok rfl
  next => exact agree_at rfl loc

theorem agree_arrayLength (d : Declarator) :
    Agree φ (fun n n' => n = n') d.arrayLength (d.relocate φ).arrayLength := by
  unfold Declarator.arrayLength Declarator.relocate
  cases d.initializer with
  | some e => exact agree_at rfl d.loc
  | none =>
    rcases d.length with _ | _ | n
    · exact agree_at rfl d.loc
    · exact agree_at rfl d.loc
    · exact .ok rfl

/-- A constant expression has the same value in scopes in which names mean the same. -/
theorem agree_constant {scope scope' : Scope} (hs : scope.Same D scope') (e : Expr) :
    Agree φ (fun v v' => v = v') (constant scope e) (constant scope' (e.relocate φ)) := by
  induction e using Expr.induct with
  | literal v loc => exact .ok rfl
  | ident name loc =>
    rw [Expr.relocate, constant, constant, hs.resolve]
    refine (agree_locate loc (checks_resolve _ _)).bind ?_
    rintro symbol _ ⟨rfl, -⟩
    rcases symbol with v | f
    · dsimp only
      split
      · exact agree_at rfl loc
      · cases v.value with
        | some value => exact .ok rfl
        | none => exact agree_at rfl loc
    · exact agree_at rfl loc
  | binary op left right loc ihl ihr =>
    rw [Expr.relocate, constant, constant]
    refine ihl.bind ?_
    rintro a _ rfl
    refine ihr.bind ?_
    rintro b _ rfl
    exact (agree_locate loc (checks_binaryType _ _ _)).bind fun _ _ _ => agree_constEval loc _
  | unary op argument prefixed loc iha =>
    rw [Expr.relocate, constant, constant]
    refine iha.bind ?_
    rintro a _ rfl
    refine (agree_locate loc (checks_unaryType _ _)).bind fun _ _ _ => ?_
    cases op with
    | neg => exact agree_constEval loc _
    | pos => exact .ok rfl
    | not => exact .ok rfl
    | inc => exact agree_at rfl loc
    | dec => exact agree_at rfl loc
  | assign left right loc => exact agree_at rfl loc
  | call callee args loc => exact agree_at rfl loc
  | member base index loc => exact agree_at rfl loc

end Constants

namespace Lowering

open Snippet

/-- Supplies that have given out the same labels, with the two regions. -/
structure Supply.Twin (W : Regions) (s s' : Supply) : Prop where
  labels : s'.labels = s.labels
  left : s.globals = W.left
  right : s'.globals = W.right

/-- Codes that correspond, with one type. -/
def TypedTwin (φ : Location → Location) (D : Anchors) (J : String → Prop) (W : Regions)
    (r r' : Code × Ty) : Prop :=
  r.1.Twin φ D J W r'.1 ∧ r.2 = r'.2

variable {φ : Location → Location} {D : Anchors} {J : String → Prop} {W : Regions}
  {scope scope' : Scope} {lowered lowered' loweredIndex loweredIndex' : Lower (Code × Ty)}
  {loweredRight loweredRight' : Lower (Code × Ty)}

/-! ## Variables, arrays and functions -/

theorem kept_operand {name : String} {v : Variable} (h : (Symbol.variable v).Kept D name)
    (index : Option Reg) :
    (v.slot.operand index).Kept D := by
  unfold Slot.operand
  cases hslot : v.slot with
  | global k => exact h k hslot
  | frame key => trivial

theorem agree_expect (ty found : Ty) (loc : Location) :
    Agree φ (fun _ _ => True) (expect ty found loc) (expect ty found (φ loc)) := by
  unfold expect
  split
  · exact .ok trivial
  · exact agree_at rfl loc

/-- A variable is found with the same operand. -/
theorem agree_scalarOperand (hs : scope.Same D scope') (name : String) (loc : Location) :
    Agree φ (fun r r' => r = r' ∧ r.1.Kept D) (scalarOperand scope name loc)
      (scalarOperand scope' name (φ loc)) := by
  unfold scalarOperand
  rw [hs.resolve]
  refine (agree_locate loc (checks_resolve _ _)).bind ?_
  rintro symbol _ ⟨rfl, hr⟩
  have hk := hs.kept_of_resolve hr
  rcases symbol with v | f
  · dsimp only
    split
    · exact agree_at rfl loc
    · exact .ok ⟨rfl, kept_operand hk none⟩
  · exact agree_at rfl loc

/-- An array is found with the same slot. -/
theorem agree_arraySlot (hs : scope.Same D scope') (base : Expr) :
    Agree φ (fun r r' => r = r' ∧ ∀ index, (r.1.operand index).Kept D) (arraySlot scope base)
      (arraySlot scope' (base.relocate φ)) := by
  cases base with
  | ident name loc =>
    rw [Expr.relocate, arraySlot, arraySlot, hs.resolve]
    refine (agree_locate loc (checks_resolve _ _)).bind ?_
    rintro symbol _ ⟨rfl, hr⟩
    have hk := hs.kept_of_resolve hr
    rcases symbol with v | f
    · dsimp only
      split
      · exact .ok ⟨rfl, kept_operand hk⟩
      · exact agree_at rfl loc
    · exact agree_at rfl loc
  | _ => exact agree_at rfl _

/-- A function is found with the same signature. -/
theorem agree_calleeSignature (hs : scope.Same D scope') (callee : Expr) :
    Agree φ (fun r r' => r = r' ∧ (r.2.external = false → D.function r.1))
      (calleeSignature scope callee) (calleeSignature scope' (callee.relocate φ)) := by
  cases callee with
  | ident name loc =>
    rw [Expr.relocate, calleeSignature, calleeSignature, hs.resolve]
    refine (agree_locate loc (checks_resolve _ _)).bind ?_
    rintro symbol _ ⟨rfl, hr⟩
    rcases symbol with v | f
    · exact agree_at rfl loc
    · exact .ok ⟨rfl, hs.kept_of_resolve hr⟩
  | _ => exact agree_at rfl _

/-! ## Labels and scratch cells -/

/-- Both computations go on with one label, in the regions that they had. -/
theorem inStep_freshLabel {α β : Type} {S : Regions → α → β → Prop} (fn kind : String)
    {f : String → Lower α} {g : String → Lower β}
    (h : ∀ l, InStep φ Supply.Twin W S (f l) (g l)) :
    InStep φ Supply.Twin W S (freshLabel fn kind >>= f) (freshLabel fn kind >>= g) := by
  rintro ⟨labels, globals⟩ ⟨labels', globals'⟩ ⟨hlabels, hleft, hright⟩
  obtain rfl : labels' = labels := hlabels
  exact h _ _ _ ⟨rfl, hleft, hright⟩

/-- The scratch cells of a type in the two regions correspond. -/
theorem inStep_castOperand (ty : Ty) :
    InStep φ Supply.Twin W (fun W' o o' => o.Twin D W' o') (castOperand ty) (castOperand ty) := by
  intro s s' hI
  refine .ok ⟨_, W.grows_draw ty, ⟨hI.labels, ?_, ?_⟩, ?_⟩
  · exact congrArg (fun g => (g.castCell ty).2) hI.left
  · exact congrArg (fun g => (g.castCell ty).2) hI.right
  · dsimp only
    rw [hI.left, hI.right]
    exact .cell (W.left.lookup_castCell ty) (W.right.lookup_castCell ty)

/-! ## Constructs -/

theorem inStep_lowerElement (hs : scope.Same D scope') (base index : Expr)
    (hl : ∀ W, InStep φ Supply.Twin W (TypedTwin φ D J) lowered lowered') :
    InStep φ Supply.Twin W
      (fun W' r r' => r.1.Twin φ D J W' r'.1 ∧ r.2 = r'.2 ∧ ∀ index, (r.2.1.operand index).Kept D)
      (lowerElement scope base index lowered)
      (lowerElement scope' (base.relocate φ) (index.relocate φ) lowered') := by
  refine .liftBind (agree_arraySlot hs base) ?_
  rintro ⟨slot, ty⟩ _ ⟨rfl, hk⟩
  refine (hl W).bind ?_
  rintro W₁ ⟨code, indexTy⟩ ⟨code', _⟩ - ⟨hcode, rfl⟩
  dsimp only
  split
  · exact .pure ⟨hcode, rfl, hk⟩
  · rw [Expr.loc_relocate]
    exact .lift (agree_at rfl _)

theorem inStep_convertCode (source target : Ty) :
    InStep φ Supply.Twin W (Code.Twin φ D J) (convertCode source target)
      (convertCode source target) := by
  unfold convertCode
  split
  · exact .pure .nil
  · refine (inStep_castOperand (D := D) target).bind fun W' cell cell' _ hcell => .pure ?_
    refine Code.Twin.ofInstrs (.cons (.unary _ (.reg _)) (.cons ?_ (.cons ?_ .nil))) rfl
    · exact (Instr.Twin.binary _ hcell (.reg _)).withComment _
    · exact .unary _ hcell

theorem inStep_valueFor (ty : Ty) (e : Expr)
    (hl : InStep φ Supply.Twin W (TypedTwin φ D J) lowered lowered') :
    InStep φ Supply.Twin W (Code.Twin φ D J) (valueFor ty e lowered)
      (valueFor ty (e.relocate φ) lowered') := by
  -- everything but a literal is computed and then converted
  have hcomputed : InStep φ Supply.Twin W (Code.Twin φ D J)
      (do
        let r ← lowered
        expect ty r.2 e.loc
        return r.1 ++ (← convertCode r.2 ty))
      (do
        let r ← lowered'
        expect ty r.2 (φ e.loc)
        return r.1 ++ (← convertCode r.2 ty)) := by
    refine hl.bind ?_
    rintro W₁ ⟨code, found⟩ ⟨code', _⟩ - ⟨hcode, rfl⟩
    refine .liftBind (agree_expect ty found e.loc) fun _ _ _ => ?_
    exact (inStep_convertCode (D := D) (J := J) found ty).bind
      fun W₂ conv conv' hW₂ hconv => .pure ((hcode.mono hW₂).append hconv)
  cases e with
  | literal v loc =>
    refine .liftBind (agree_convertConstant ty v loc) ?_
    rintro w _ rfl
    exact .pure ((Code.twin_of_jumps_eq_nil rfl rfl).located loc)
  | _ => exact hcomputed

theorem inStep_storeInto (hs : scope.Same D scope') {dest : Operand} (hd : dest.Kept D) (ty : Ty)
    (e : Expr) (hl : InStep φ Supply.Twin W (TypedTwin φ D J) lowered lowered') :
    InStep φ Supply.Twin W (Code.Twin φ D J) (storeInto scope dest ty e lowered)
      (storeInto scope' dest ty (e.relocate φ) lowered') := by
  -- the general path is stated first, because the last case covers five forms of expressions
  have hcomputed : InStep φ Supply.Twin W (Code.Twin φ D J)
      (do
        let r ← lowered
        expect ty r.2 e.loc
        return r.1 ++ Code.ofInstrs [.pop r0, .mov dest r0])
      (do
        let r ← lowered'
        expect ty r.2 (φ e.loc)
        return r.1 ++ Code.ofInstrs [.pop r0, .mov dest r0]) := by
    refine hl.bind ?_
    rintro W₁ ⟨code, found⟩ ⟨code', _⟩ - ⟨hcode, rfl⟩
    refine .liftBind (agree_expect ty found e.loc) fun _ _ _ => ?_
    refine .pure (hcode.append (.ofInstrs (.cons ?_ (.cons ?_ .nil)) rfl))
    · exact .unary _ (.reg _)
    · exact .binary _ (.same hd) (.reg _)
  cases e with
  | literal v loc =>
    refine .liftBind (agree_convertConstant ty v loc) ?_
    rintro w _ rfl
    exact .pure (.ofInstrs (.cons (.binary _ (.same hd) (.imm w)) .nil) rfl)
  | ident name loc =>
    refine .liftBind (agree_scalarOperand hs name loc) ?_
    rintro ⟨src, found⟩ _ ⟨rfl, hsrc⟩
    refine .liftBind (agree_expect ty found loc) fun _ _ _ => ?_
    exact .pure (.ofInstrs (.cons (.binary _ (.same hd) (.same hsrc)) .nil) rfl)
  | _ => exact hcomputed

theorem isImmediate_relocate (e : Expr) : isImmediate (e.relocate φ) = isImmediate e := by
  cases e <;> rfl

/-- What an assignment and a step by one do at a place: code that corresponds, one place, and one
type. -/
def PlaceTwin (φ : Location → Location) (D : Anchors) (J : String → Prop) (W : Regions)
    (r r' : Code × Operand × Ty) : Prop :=
  r.1.Twin φ D J W r'.1 ∧ r.2 = r'.2 ∧ r.2.1.Kept D

theorem inStep_assignment (hs : scope.Same D scope') (left right : Expr)
    (hi : ∀ W, InStep φ Supply.Twin W (TypedTwin φ D J) loweredIndex loweredIndex')
    (hr : ∀ W, InStep φ Supply.Twin W (TypedTwin φ D J) loweredRight loweredRight')
    (wantValue : Bool) :
    InStep φ Supply.Twin W (TypedTwin φ D J)
      (assignment scope left right loweredIndex loweredRight wantValue)
      (assignment scope' (left.relocate φ) (right.relocate φ) loweredIndex' loweredRight'
        wantValue) := by
  unfold assignment
  extract_lets push
  -- all ways of storing end in the same push of the stored value
  have hpush (W : Regions) (r r' : Code × Operand × Ty) (h : PlaceTwin φ D J W r r') :
      InStep φ Supply.Twin W (TypedTwin φ D J) (push r) (push r') := by
    obtain ⟨code, dest, ty⟩ := r
    obtain ⟨code', _, _⟩ := r'
    obtain ⟨hcode, ⟨⟩, hdest⟩ := h
    refine .pure ⟨hcode.append ?_, rfl⟩
    split
    · exact .ofInstrs (.cons (.unary _ (.same hdest)) .nil) rfl
    · exact .nil
  cases left with
  | ident name loc =>
    refine .liftBind (agree_scalarOperand hs name loc) ?_
    rintro ⟨dest, ty⟩ _ ⟨rfl, hdest⟩
    refine (inStep_storeInto hs hdest ty right (hr W)).bind fun W₁ code code' _ hcode => ?_
    refine InStep.bind (R := PlaceTwin φ D J) (.pure ?_) fun W r r' _ h => hpush W r r' h
    exact ⟨hcode, rfl, hdest⟩
  | member base index loc =>
    cases base with
    | ident name loc' =>
      refine (inStep_lowerElement hs (.ident name loc') index hi).bind ?_
      rintro W₁ ⟨indexCode, slot, ty⟩ ⟨indexCode', _, _⟩ - ⟨hindex, ⟨⟩, hslot⟩
      dsimp only
      rw [isImmediate_relocate]
      split
      · refine (inStep_storeInto hs (hslot _) ty right (hr W₁)).bind
          fun W₂ store store' hW₂ hstore => ?_
        refine InStep.bind (R := PlaceTwin φ D J) (.pure ?_) fun W r r' _ h => hpush W r r' h
        refine ⟨?_, rfl, hslot (some .ix)⟩
        exact ((hindex.mono hW₂).append (Code.twin_of_jumps_eq_nil rfl rfl)).append hstore
      · refine (hr W₁).bind ?_
        rintro W₂ ⟨value, found⟩ ⟨value', _⟩ hW₂ ⟨hvalue, rfl⟩
        rw [Expr.loc_relocate]
        refine .liftBind (agree_expect ty found right.loc) fun _ _ _ => ?_
        refine InStep.bind (R := PlaceTwin φ D J) (.pure ?_) fun W r r' _ h => hpush W r r' h
        refine ⟨?_, rfl, hslot (some .ix)⟩
        refine ((hindex.mono hW₂).append hvalue).append ?_
        refine .ofInstrs (.cons ?_ (.cons ?_ (.cons ?_ .nil))) rfl
        · exact .unary _ (.reg _)
        · exact .unary _ (.reg _)
        · exact .binary _ (.same (hslot _)) (.reg _)
    | _ => exact .lift (agree_at rfl _)
  | _ => exact .lift (agree_at rfl _)

theorem inStep_stepByOne (hs : scope.Same D scope') (op : UnaryOp) (argument : Expr)
    (prefixed : Bool)
    (hi : ∀ W, InStep φ Supply.Twin W (TypedTwin φ D J) loweredIndex loweredIndex')
    (wantValue : Bool) :
    InStep φ Supply.Twin W (TypedTwin φ D J)
      (stepByOne scope op argument prefixed loweredIndex wantValue)
      (stepByOne scope' op (argument.relocate φ) prefixed loweredIndex' wantValue) := by
  unfold stepByOne
  rw [Expr.loc_relocate]
  extract_lets change change'
  -- variables and elements are changed by the same instructions
  have hchange (W : Regions) (r r' : Code × Operand × Ty) (h : PlaceTwin φ D J W r r') :
      InStep φ Supply.Twin W (TypedTwin φ D J) (change r) (change' r') := by
    obtain ⟨address, dest, ty⟩ := r
    obtain ⟨address', _, _⟩ := r'
    obtain ⟨haddress, ⟨⟩, hdest⟩ := h
    refine .liftBind (agree_locate argument.loc (checks_unaryType _ _)) ?_
    rintro t _ ⟨rfl, -⟩
    refine .pure ⟨haddress.append (.ofInstrs ?_ ?_), rfl⟩
    have hstep : (Instr.unary (stepCode op) dest).Twin φ D W (Instr.unary (stepCode op) dest) :=
      .unary _ (.same hdest)
    have hpush : (Instr.push dest).Twin φ D W (Instr.push dest) := .unary _ (.same hdest)
    · split
      · split
        · exact .cons hstep (.cons hpush .nil)
        · exact .cons hpush (.cons hstep .nil)
      · exact .cons hstep .nil
    · have hjump : (Instr.unary (stepCode op) dest).jump? = none := by cases op <;> rfl
      split
      · split <;> simp [hjump]
      · simp [hjump]
  cases argument with
  | ident name loc =>
    refine .liftBind (agree_scalarOperand hs name loc) ?_
    rintro ⟨dest, ty⟩ _ ⟨rfl, hdest⟩
    refine InStep.bind (R := PlaceTwin φ D J) (.pure ?_) fun W r r' _ h => hchange W r r' h
    exact ⟨.nil, rfl, hdest⟩
  | member base index loc =>
    cases base with
    | ident name loc' =>
      refine (inStep_lowerElement hs (.ident name loc') index hi).bind ?_
      rintro W₁ ⟨indexCode, slot, ty⟩ ⟨indexCode', _, _⟩ - ⟨hindex, ⟨⟩, hslot⟩
      refine InStep.bind (R := PlaceTwin φ D J) (.pure ?_) fun W r r' _ h => hchange W r r' h
      exact ⟨hindex.append (Code.twin_of_jumps_eq_nil rfl rfl), rfl, hslot (some .ix)⟩
    | _ => exact .lift (agree_at rfl _)
  | _ => exact .lift (agree_at rfl _)

theorem twin_call {name : String} {f : Signature} (hf : f.external = false → D.function name)
    (argc : Nat) :
    (Instr.call (callTarget name f) argc).Twin φ D W (Instr.call (callTarget name f) argc) := by
  unfold callTarget
  split
  next => exact .binary _ (.same trivial) (.imm _)
  next hext =>
    refine ⟨rfl, rfl, rfl, .inr ⟨name, rfl, rfl, .inr ⟨rfl, hf ?_⟩⟩, .some (.imm _)⟩
    exact eq_false_of_ne_true hext

theorem inStep_functionCall (hs : scope.Same D scope') (callee : Expr) (argc : Nat)
    (loc : Location) {loweredArgs loweredArgs' : List Ty → Lower Code}
    (ha : ∀ W params, InStep φ Supply.Twin W (Code.Twin φ D J) (loweredArgs params)
      (loweredArgs' params)) (wantValue : Bool) :
    InStep φ Supply.Twin W (TypedTwin φ D J)
      (functionCall scope callee argc loc loweredArgs wantValue)
      (functionCall scope' (callee.relocate φ) argc (φ loc) loweredArgs' wantValue) := by
  refine .liftBind (agree_calleeSignature hs callee) ?_
  rintro ⟨name, f⟩ _ ⟨rfl, hf⟩
  dsimp only
  split
  · exact .lift (agree_at rfl loc)
  · split
    · exact .lift (agree_at rfl loc)
    · refine (ha W f.params).bind fun W₁ args args' _ hargs => ?_
      -- the result of a host function is converted in a cell, which may lie elsewhere on the other
      -- side
      have hcall : Code.Twin φ D J W₁
          (args ++ Code.ofInstrs [(Instr.call (callTarget name f) argc).withComment name])
          (args' ++ Code.ofInstrs [(Instr.call (callTarget name f) argc).withComment name]) := by
        exact hargs.append (.ofInstrs (.cons ((twin_call hf argc).withComment name) .nil) rfl)
      split
      · split
        · refine (inStep_castOperand (D := D) f.ret).bind fun W₂ cell cell' hW₂ hcell => ?_
          refine .pure ⟨(hcall.mono hW₂).append (.ofInstrs (.cons ?_ (.cons ?_ .nil)) rfl), rfl⟩
          · exact (Instr.Twin.binary _ hcell (.reg _)).withComment _
          · exact .unary _ hcell
        · exact .pure ⟨hcall.append (Code.twin_of_jumps_eq_nil rfl rfl), rfl⟩
      · exact .pure ⟨hcall, rfl⟩

theorem inStep_shortCircuit (fn : String) (op : BinaryOp) {left left' right right' : Code}
    (hl : left.Twin φ D J W left') (hr : right.Twin φ D J W right') :
    InStep φ Supply.Twin W (Code.Twin φ D J) (shortCircuit fn op left right)
      (shortCircuit fn op left' right') := by
  refine inStep_freshLabel fn "true" fun yes => inStep_freshLabel fn "false" fun no =>
    inStep_freshLabel fn "end" fun done => ?_
  dsimp only
  split
  · exact .pure (twin_andCode _ hl hr)
  · exact inStep_freshLabel fn "rhs" fun rhs => .pure (twin_orCode _ _ hl hr)

theorem inStep_atLoc (loc : Location)
    (hl : InStep φ Supply.Twin W (TypedTwin φ D J) lowered lowered') :
    InStep φ Supply.Twin W (TypedTwin φ D J) (atLoc loc lowered) (atLoc (φ loc) lowered') := by
  refine hl.bind ?_
  rintro W₁ ⟨code, ty⟩ ⟨code', _⟩ - ⟨hcode, rfl⟩
  exact .pure ⟨hcode.located loc, rfl⟩

/-! ## Expressions -/

theorem inStep_lowerArgs (fn : String) (args : List Expr) (params : List Ty)
    (h : ∀ a ∈ args, ∀ W, InStep φ Supply.Twin W (TypedTwin φ D J) (lower fn scope a)
      (lower fn scope' (a.relocate φ))) :
    InStep φ Supply.Twin W (Code.Twin φ D J) (lowerArgs fn scope args params)
      (lowerArgs fn scope' (Expr.relocateAll φ args) params) := by
  induction args generalizing params W with
  | nil =>
    rw [Expr.relocateAll, lowerArgs, lowerArgs]
    exact .pure .nil
  | cons arg rest ih =>
    have harg := h arg List.mem_cons_self
    rw [Expr.relocateAll, lowerArgs, lowerArgs]
    refine (ih params.tail fun a ha => h a (List.mem_cons_of_mem _ ha)).bind
      fun W₁ after after' _ hafter => ?_
    have hjoin (W₂ : Regions) (here here' : Code) (hW₂ : W₁.Grows W₂)
        (hhere : here.Twin φ D J W₂ here') :
        InStep φ Supply.Twin W₂ (Code.Twin φ D J) (pure (after ++ here)) (pure (after' ++ here')) :=
      .pure ((hafter.mono hW₂).append hhere)
    cases params.head? with
    | none =>
      exact ((harg W₁).map (S := Code.Twin φ D J) (fun _ _ _ _ hr => hr.1)).bind hjoin
    | some ty => exact (inStep_valueFor ty arg (harg W₁)).bind hjoin

theorem inStep_lowerIndex (fn : String) (e : Expr)
    (h : ∀ base index loc, e = .member base index loc → ∀ W,
      InStep φ Supply.Twin W (TypedTwin φ D J) (lower fn scope index)
        (lower fn scope' (index.relocate φ))) :
    InStep φ Supply.Twin W (TypedTwin φ D J) (lowerIndex fn scope e)
      (lowerIndex fn scope' (e.relocate φ)) := by
  cases e with
  | member base index loc => exact h base index loc rfl W
  | _ => exact .pure ⟨.nil, rfl⟩

/-- **Lowering an expression goes in step with lowering it with its places moved.** -/
theorem inStep_lower (hs : scope.Same D scope') (fn : String) (e : Expr) :
    InStep φ Supply.Twin W (TypedTwin φ D J) (lower fn scope e)
      (lower fn scope' (e.relocate φ)) := by
  -- the regions grow from part to part, so they are general in the induction
  induction e using Expr.induct generalizing W with
  | literal v loc =>
    rw [Expr.relocate, lower, lower]
    exact inStep_atLoc loc (.pure ⟨Code.twin_of_jumps_eq_nil rfl rfl, rfl⟩)
  | ident name loc =>
    rw [Expr.relocate, lower, lower]
    refine inStep_atLoc loc (.liftBind (agree_scalarOperand hs name loc) ?_)
    rintro ⟨src, ty⟩ _ ⟨rfl, hsrc⟩
    exact .pure ⟨.ofInstrs (.cons (.unary _ (.same hsrc)) .nil) rfl, rfl⟩
  | binary op left right loc ihl ihr =>
    rw [Expr.relocate, lower, lower]
    refine inStep_atLoc loc (ihl.bind ?_)
    rintro W₁ ⟨leftCode, leftTy⟩ ⟨leftCode', _⟩ - ⟨hleft, rfl⟩
    refine ihr.bind ?_
    rintro W₂ ⟨rightCode, rightTy⟩ ⟨rightCode', _⟩ hW₂ ⟨hright, rfl⟩
    refine .liftBind (agree_locate loc (checks_binaryType _ _ _)) ?_
    rintro ty _ ⟨rfl, -⟩
    split
    · exact (inStep_shortCircuit fn op (hleft.mono hW₂) hright).bind fun W₃ code code' _ hcode =>
        .pure ⟨hcode, rfl⟩
    · exact .pure ⟨twin_binaryCode op (hleft.mono hW₂) hright, rfl⟩
  | unary op argument prefixed loc iha ihi =>
    rw [Expr.relocate, lower_unary, lower_unary]
    refine inStep_atLoc loc ?_
    split
    · refine inStep_stepByOne hs op argument prefixed (fun W => ?_) true
      exact inStep_lowerIndex fn argument fun base index loc' hm W => ihi base index loc' hm
    · refine iha.bind ?_
      rintro W₁ ⟨code, t⟩ ⟨code', _⟩ - ⟨hcode, rfl⟩
      refine .liftBind (agree_locate loc (checks_unaryType _ _)) ?_
      rintro ty _ ⟨rfl, -⟩
      exact .pure ⟨twin_unaryCode op hcode, rfl⟩
  | assign left right loc ihi ihr =>
    rw [Expr.relocate, lower_assign, lower_assign]
    refine inStep_atLoc loc (inStep_assignment hs left right (fun W => ?_) (fun W => ihr) true)
    exact inStep_lowerIndex fn left fun base index loc' hm W => ihi base index loc' hm
  | call callee args loc ih =>
    rw [Expr.relocate, lower, lower, Expr.length_relocateAll]
    refine inStep_atLoc loc (inStep_functionCall hs callee _ loc (fun W params => ?_) true)
    exact inStep_lowerArgs fn args params fun a ha W => ih a ha
  | member base index loc ih =>
    rw [Expr.relocate, lower, lower]
    refine inStep_atLoc loc ((inStep_lowerElement hs base index fun W => ih).bind ?_)
    rintro W₁ ⟨code, slot, ty⟩ ⟨code', _, _⟩ - ⟨hcode, ⟨⟩, hslot⟩
    refine .pure ⟨hcode.append (.ofInstrs (.cons ?_ (.cons ?_ .nil)) rfl), rfl⟩
    · exact .unary _ (.reg _)
    · exact .unary _ (.same (hslot _))

/-- **Lowering an expression for its effect goes in step as well.** -/
theorem inStep_lowerEffect (hs : scope.Same D scope') (fn : String) (e : Expr) :
    InStep φ Supply.Twin W (Code.Twin φ D J) (lowerEffect fn scope e)
      (lowerEffect fn scope' (e.relocate φ)) := by
  have hi (W : Regions) (e : Expr) : InStep φ Supply.Twin W (TypedTwin φ D J)
      (lowerIndex fn scope e) (lowerIndex fn scope' (e.relocate φ)) :=
    inStep_lowerIndex fn e fun _ index _ _ W => inStep_lower hs fn index
  -- the value of any other expression is dropped
  have hdropped : InStep φ Supply.Twin W (Code.Twin φ D J)
      (do
        let r ← lower fn scope e
        return r.1 ++ Code.ofInstrs [.pop r0])
      (do
        let r ← lower fn scope' (e.relocate φ)
        return r.1 ++ Code.ofInstrs [.pop r0]) :=
    (inStep_lower hs fn e).bind fun W₁ r r' _ hr =>
      .pure (hr.1.append (Code.twin_of_jumps_eq_nil rfl rfl))
  cases e with
  | assign left right loc =>
    rw [Expr.relocate, lowerEffect, lowerEffect]
    exact (inStep_assignment hs left right (fun W => hi W left)
      (fun W => inStep_lower hs fn right) false).bind fun W₁ r r' _ hr => .pure hr.1
  | call callee args loc =>
    rw [Expr.relocate, lowerEffect, lowerEffect, Expr.length_relocateAll]
    refine (inStep_functionCall hs callee _ loc (fun W params => ?_) false).bind
      fun W₁ r r' _ hr => .pure hr.1
    exact inStep_lowerArgs fn args params fun a _ W => inStep_lower hs fn a
  | unary op argument prefixed loc =>
    rw [Expr.relocate] at hdropped
    rw [Expr.relocate, lowerEffect, lowerEffect]
    split
    · exact (inStep_stepByOne hs op argument prefixed (fun W => hi W argument) false).bind
        fun W₁ r r' _ hr => .pure hr.1
    · exact hdropped
  | _ => exact hdropped

end Lowering

end Stepwise
