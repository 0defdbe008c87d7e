import Mathlib
import Stepwise.Proofs.Success

/-!
# How expressions are lowered

When lowering an expression succeeds, the expression has one of a few forms, its parts have been
lowered, and its code is put together from theirs. The forms are listed once, here; facts about
generated code go through the list.

## Main definitions

* `Stored`, `Valued`, `Assigned`, `Stepped`, `Called`: the constructs that have cases of their own
* `Lowered`: the forms of a lowered expression
* `Draws`: supplies from which only labels and scratch cells were drawn

## Main results

* `Expr.induct`: induction on expressions, with the arguments of a call and the index of an element
* `lowered_of_lower`, `effected_of_lowerEffect`: a success is one of the forms
-/

namespace Stepwise

/-- Induction on expressions. The target of an assignment or a step may be an array element, whose
index is then lowered by itself. -/
theorem Expr.induct {P : Expr → Prop}
    (literal : ∀ v loc, P (.literal v loc))
    (ident : ∀ name loc, P (.ident name loc))
    (binary : ∀ op left right loc, P left → P right → P (.binary op left right loc))
    (unary : ∀ op argument prefixed loc, P argument →
      (∀ base index loc', argument = .member base index loc' → P index) →
      P (.unary op argument prefixed loc))
    (assign : ∀ left right loc, (∀ base index loc', left = .member base index loc' → P index) →
      P right → P (.assign left right loc))
    (call : ∀ callee args loc, (∀ a ∈ args, P a) → P (.call callee args loc))
    (member : ∀ base index loc, P index → P (.member base index loc)) (e : Expr) : P e := by
  refine (@Expr.rec (fun e => P e ∧ ∀ base index loc, e = .member base index loc → P index)
    (fun es => ∀ a ∈ es, P a) ?_ ?_ ?_ ?_ ?_ ?_ ?_ ?_ ?_ e).1
  · exact fun v loc => ⟨literal v loc, by simp⟩
  · exact fun name loc => ⟨ident name loc, by simp⟩
  · exact fun op l r loc hl hr => ⟨binary op l r loc hl.1 hr.1, by simp⟩
  · exact fun op a p loc ha => ⟨unary op a p loc ha.1 ha.2, by simp⟩
  · exact fun l r loc hl hr => ⟨assign l r loc hl.2 hr.1, by simp⟩
  · exact fun c args loc _ hargs => ⟨call c args loc hargs, by simp⟩
  · refine fun b i loc _ hi => ⟨member b i loc hi.1, ?_⟩
    rintro _ _ _ ⟨⟩
    exact hi.1
  · simp
  · intro a as ha has b hb
    rcases List.mem_cons.mp hb with rfl | hb
    · exact ha.1
    · exact has b hb

end Stepwise

namespace Stepwise.Lowering

open Snippet

variable {loc : Location} {ty : Ty} {code : Code} {e : Expr} {lowered : Lower (Code × Ty)}
  {s s' : Supply} {scope : Scope} {wantValue : Bool} {fn : String}

theorem expect_eq_ok {found : Ty} {u : Unit} :
    expect ty found loc = .ok u ↔ assignable ty found = true := by
  unfold expect
  split <;> simp_all [Mistake.at]

/-! ## Constructs with cases of their own -/

/-- The store of an expression into `dest`, a slot of type `ty`: of a constant, of another variable,
or of a computed value. -/
inductive Stored (scope : Scope) (dest : Operand) (ty : Ty) (lowered : Lower (Code × Ty))
    (s : Supply) : Expr → Code → Supply → Prop
  | literal {v w : Value} {loc : Location} : convertConstant ty v loc = .ok w →
    Stored scope dest ty lowered s (.literal v loc) (Code.ofInstrs [.mov dest (.imm w)]) s
  | ident {name : String} {loc : Location} {src : Operand} {found : Ty} :
    scalarOperand scope name loc = .ok (src, found) → assignable ty found = true →
    Stored scope dest ty lowered s (.ident name loc) (Code.ofInstrs [.mov dest src]) s
  | computed {e : Expr} {code : Code} {found : Ty} {s' : Supply} : isImmediate e = false →
    lowered s = .ok ((code, found), s') → assignable ty found = true →
    Stored scope dest ty lowered s e (code ++ Code.ofInstrs [.pop r0, .mov dest r0]) s'

theorem stored_of_storeInto {dest : Operand}
    (h : storeInto scope dest ty e lowered s = .ok (code, s')) :
    Stored scope dest ty lowered s e code s' := by
  unfold storeInto at h
  split at h
  · simp only [stateT_bind_eq_ok, stateT_lift_eq_ok, stateT_pure_eq_ok] at h
    obtain ⟨_, _, ⟨w, hw, ⟨⟩⟩, ⟨⟩⟩ := h
    exact .literal hw
  · simp only [stateT_bind_eq_ok, stateT_lift_eq_ok, stateT_pure_eq_ok, expect_eq_ok] at h
    obtain ⟨_, _, ⟨⟨src, found⟩, hs, ⟨⟩⟩, _, _, ⟨_, ha, ⟨⟩⟩, ⟨⟩⟩ := h
    exact .ident hs ha
  next hlit hid =>
    simp only [stateT_bind_eq_ok, stateT_lift_eq_ok, stateT_pure_eq_ok, expect_eq_ok] at h
    obtain ⟨⟨code, found⟩, s₁, hl, _, _, ⟨_, ha, ⟨⟩⟩, ⟨⟩⟩ := h
    refine .computed ?_ hl ha
    cases e <;> simp_all [isImmediate]

/-- The code that passes the top of the stack through a scratch cell. -/
def throughCell (cell : Operand) (source target : Ty) : Code :=
  Code.ofInstrs [.pop r0,
    (Instr.mov cell r0).withComment (source.name ++ " -> " ++ target.name), .push cell]

/-- The scratch cell of a type as an operand. -/
def cellOperand (g : GlobalLayout) (ty : Ty) : Operand :=
  (Slot.global (g.castCell ty).1).operand none

/-- The supply after the scratch cell of a type was asked for. -/
def Supply.withCell (s : Supply) (ty : Ty) : Supply :=
  { s with globals := (s.globals.castCell ty).2 }

/-- The value of an expression for a slot of type `ty`: a constant, or a computed value, converted
if its type differs. -/
inductive Valued (ty : Ty) (lowered : Lower (Code × Ty)) (s : Supply) :
    Expr → Code → Supply → Prop
  | literal {v w : Value} {loc : Location} : convertConstant ty v loc = .ok w →
    Valued ty lowered s (.literal v loc) (Code.located loc (Code.ofInstrs [.push (.imm w)])) s
  | same {e : Expr} {code : Code} {s' : Supply} : lowered s = .ok ((code, ty), s') →
    assignable ty ty = true → Valued ty lowered s e code s'
  | converted {e : Expr} {code : Code} {found : Ty} {s' : Supply} :
    lowered s = .ok ((code, found), s') → assignable ty found = true → found ≠ ty →
    Valued ty lowered s e (code ++ throughCell (cellOperand s'.globals ty) found ty)
      (s'.withCell ty)

theorem valued_of_valueFor (h : valueFor ty e lowered s = .ok (code, s')) :
    Valued ty lowered s e code s' := by
  unfold valueFor at h
  split at h
  · simp only [stateT_bind_eq_ok, stateT_lift_eq_ok, stateT_pure_eq_ok] at h
    obtain ⟨_, _, ⟨w, hw, ⟨⟩⟩, ⟨⟩⟩ := h
    exact .literal hw
  · simp only [stateT_bind_eq_ok, stateT_lift_eq_ok, stateT_pure_eq_ok, expect_eq_ok] at h
    obtain ⟨⟨code, found⟩, s₁, hl, _, _, ⟨_, ha, ⟨⟩⟩, conv, s₂, hc, ⟨⟩⟩ := h
    unfold convertCode at hc
    split at hc
    next heq =>
      simp only [stateT_pure_eq_ok] at hc
      obtain ⟨⟩ := hc
      obtain rfl : found = ty := heq
      rw [List.append_nil]
      exact .same hl ha
    next hne =>
      simp only [stateT_bind_eq_ok, stateT_pure_eq_ok] at hc
      obtain ⟨cell, s₃, hcell, ⟨⟩⟩ := hc
      cases hcell
      exact .converted hl ha hne

/-- The index of an element of a named array. -/
theorem lowerElement_eq_ok {base index : Expr} {slot : Slot} :
    lowerElement scope base index lowered s = .ok ((code, slot, ty), s') ↔
      arraySlot scope base = .ok (slot, ty) ∧
        ∃ indexTy, lowered s = .ok ((code, indexTy), s') ∧ indexTy.isIntegral = true := by
  simp only [lowerElement, stateT_bind_eq_ok, stateT_lift_eq_ok]
  constructor
  · rintro ⟨_, _, ⟨⟨slot, ty⟩, ha, ⟨⟩⟩, ⟨c, indexTy⟩, s₁, hl, h⟩
    split at h
    next hi =>
      simp only [stateT_pure_eq_ok] at h
      obtain ⟨⟩ := h
      exact ⟨ha, indexTy, hl, hi⟩
    · simp [stateT_lift_eq_ok, at_ne_ok] at h
  · rintro ⟨ha, indexTy, hl, hi⟩
    exact ⟨_, _, ⟨_, ha, rfl⟩, _, _, hl, by simp [hi, stateT_pure_eq_ok]⟩

/-- An assignment, with the place that it stores into: a variable, or an array element that takes an
immediate or a computed value. -/
inductive Assigned (scope : Scope) (right : Expr) (index rhs : Lower (Code × Ty)) (s : Supply) :
    Expr → Code → Operand → Ty → Supply → Prop
  | scalar {name : String} {loc : Location} {dest : Operand} {ty : Ty} {code : Code}
    {s' : Supply} : scalarOperand scope name loc = .ok (dest, ty) →
    Stored scope dest ty rhs s right code s' →
    Assigned scope right index rhs s (.ident name loc) code dest ty s'
  | immediate {name : String} {loc loc' : Location} {i : Expr} {slot : Slot} {ty indexTy : Ty}
    {indexCode code : Code} {s₁ s' : Supply} :
    arraySlot scope (.ident name loc) = .ok (slot, ty) →
    index s = .ok ((indexCode, indexTy), s₁) → indexTy.isIntegral = true →
    isImmediate right = true → Stored scope (slot.operand (some .ix)) ty rhs s₁ right code s' →
    Assigned scope right index rhs s (.member (.ident name loc) i loc')
      (indexCode ++ Code.ofInstrs [.pop ix] ++ code) (slot.operand (some .ix)) ty s'
  | computed {name : String} {loc loc' : Location} {i : Expr} {slot : Slot} {ty indexTy found : Ty}
    {indexCode value : Code} {s₁ s' : Supply} :
    arraySlot scope (.ident name loc) = .ok (slot, ty) →
    index s = .ok ((indexCode, indexTy), s₁) → indexTy.isIntegral = true →
    isImmediate right = false → rhs s₁ = .ok ((value, found), s') → assignable ty found = true →
    Assigned scope right index rhs s (.member (.ident name loc) i loc')
      (indexCode ++ value ++ Code.ofInstrs [.pop r0, .pop ix, .mov (slot.operand (some .ix)) r0])
      (slot.operand (some .ix)) ty s'

theorem assigned_of_assignment {left right : Expr} {index rhs : Lower (Code × Ty)}
    (h : assignment scope left right index rhs wantValue s = .ok ((code, ty), s')) :
    ∃ c dest, Assigned scope right index rhs s left c dest ty s' ∧
      code = c ++ (if wantValue then Code.ofInstrs [.push dest] else []) := by
  unfold assignment at h
  split at h
  · simp only [stateT_bind_eq_ok, stateT_lift_eq_ok, stateT_pure_eq_ok] at h
    obtain ⟨_, _, ⟨⟨dest, t⟩, hd, ⟨⟩⟩, store, s₂, hs, _, _, ⟨⟩, ⟨⟩⟩ := h
    exact ⟨store, dest, .scalar hd (stored_of_storeInto hs), rfl⟩
  · simp only [stateT_bind_eq_ok] at h
    obtain ⟨⟨indexCode, slot, t⟩, s₁, he, h⟩ := h
    obtain ⟨ha, indexTy, hi, hint⟩ := lowerElement_eq_ok.mp he
    split at h
    next himm =>
      simp only [stateT_bind_eq_ok, stateT_pure_eq_ok] at h
      obtain ⟨store, s₂, hs, _, _, ⟨⟩, ⟨⟩⟩ := h
      exact ⟨_, _, .immediate ha hi hint himm (stored_of_storeInto hs), rfl⟩
    next himm =>
      simp only [stateT_bind_eq_ok, stateT_lift_eq_ok, stateT_pure_eq_ok, expect_eq_ok] at h
      obtain ⟨⟨value, found⟩, s₂, hr, _, _, ⟨_, has, ⟨⟩⟩, _, _, ⟨⟩, ⟨⟩⟩ := h
      exact ⟨_, _, .computed ha hi hint (by simpa using himm) hr has, rfl⟩
  · simp only [stateT_bind_eq_ok, stateT_lift_eq_ok, at_ne_ok] at h
    obtain ⟨_, _, ⟨_, ⟨⟩, _⟩, _⟩ := h

/-- The place that a step by one changes, with the code that computes its index. -/
inductive Stepped (scope : Scope) (index : Lower (Code × Ty)) (s : Supply) :
    Expr → Code → Operand → Ty → Supply → Prop
  | scalar {name : String} {loc : Location} {dest : Operand} {ty : Ty} :
    scalarOperand scope name loc = .ok (dest, ty) →
    Stepped scope index s (.ident name loc) [] dest ty s
  | element {name : String} {loc loc' : Location} {i : Expr} {slot : Slot} {ty indexTy : Ty}
    {indexCode : Code} {s' : Supply} :
    arraySlot scope (.ident name loc) = .ok (slot, ty) →
    index s = .ok ((indexCode, indexTy), s') → indexTy.isIntegral = true →
    Stepped scope index s (.member (.ident name loc) i loc')
      (indexCode ++ Code.ofInstrs [.pop ix]) (slot.operand (some .ix)) ty s'

/-- The instructions of a step by one at a place. -/
def changeCode (op : UnaryOp) (prefixed wantValue : Bool) (dest : Operand) : Code :=
  Code.ofInstrs <|
    if wantValue then
      if prefixed then [.unary (stepCode op) dest, .push dest]
      else [.push dest, .unary (stepCode op) dest]
    else [.unary (stepCode op) dest]

theorem stepped_of_stepByOne {op : UnaryOp} {argument : Expr} {prefixed : Bool}
    {index : Lower (Code × Ty)}
    (h : stepByOne scope op argument prefixed index wantValue s = .ok ((code, ty), s')) :
    ∃ address dest t, Stepped scope index s argument address dest t s' ∧
      unaryType op t = .ok ty ∧ code = address ++ changeCode op prefixed wantValue dest := by
  unfold stepByOne at h
  split at h
  · simp only [stateT_bind_eq_ok, stateT_lift_eq_ok, stateT_pure_eq_ok, locate_eq_ok] at h
    obtain ⟨_, _, ⟨⟨dest, t⟩, hd, ⟨⟩⟩, _, _, ⟨⟩, _, _, ⟨ty, hu, ⟨⟩⟩, ⟨⟩⟩ := h
    exact ⟨[], dest, t, .scalar hd, hu, rfl⟩
  · simp only [stateT_bind_eq_ok, stateT_lift_eq_ok, stateT_pure_eq_ok, locate_eq_ok] at h
    obtain ⟨⟨indexCode, slot, t⟩, s₁, he, _, _, ⟨⟩, _, _, ⟨ty, hu, ⟨⟩⟩, ⟨⟩⟩ := h
    obtain ⟨ha, indexTy, hi, hint⟩ := lowerElement_eq_ok.mp he
    exact ⟨_, _, t, .element ha hi hint, hu, rfl⟩
  · simp only [stateT_bind_eq_ok, stateT_lift_eq_ok, at_ne_ok] at h
    obtain ⟨_, _, ⟨_, ⟨⟩, _⟩, _⟩ := h

/-- The instruction that calls a function. -/
def callCode (name : String) (f : Signature) (argc : Nat) : Code :=
  Code.ofInstrs [(Instr.call (callTarget name f) argc).withComment name]

/-- The number of arguments fits a function. -/
def Takes (f : Signature) (argc : Nat) : Prop :=
  f.params.length ≤ argc ∧ (f.variadic = false → argc ≤ f.params.length)

/-- A call for its effect, of a compiled function for its value, and of a host function for its
value. -/
inductive Called (scope : Scope) (callee : Expr) (argc : Nat) (loweredArgs : List Ty → Lower Code)
    (s : Supply) : Bool → Code → Ty → Supply → Prop
  | effect {name : String} {f : Signature} {args : Code} {s' : Supply} :
    calleeSignature scope callee = .ok (name, f) → Takes f argc →
    loweredArgs f.params s = .ok (args, s') →
    Called scope callee argc loweredArgs s false (args ++ callCode name f argc) f.ret s'
  | compiled {name : String} {f : Signature} {args : Code} {s' : Supply} :
    calleeSignature scope callee = .ok (name, f) → Takes f argc →
    loweredArgs f.params s = .ok (args, s') → f.external = false → f.ret ≠ .void →
    Called scope callee argc loweredArgs s true
      (args ++ callCode name f argc ++ Code.ofInstrs [.push rv]) f.ret s'
  | host {name : String} {f : Signature} {args : Code} {s' : Supply} :
    calleeSignature scope callee = .ok (name, f) → Takes f argc →
    loweredArgs f.params s = .ok (args, s') → f.external = true → f.ret ≠ .void →
    Called scope callee argc loweredArgs s true
      (args ++ callCode name f argc ++ Code.ofInstrs [
        (Instr.mov (cellOperand s'.globals f.ret) rv).withComment (name ++ " -> " ++ f.ret.name),
        .push (cellOperand s'.globals f.ret)]) f.ret (s'.withCell f.ret)

theorem called_of_functionCall {callee : Expr} {argc : Nat} {loweredArgs : List Ty → Lower Code}
    (h : functionCall scope callee argc loc loweredArgs wantValue s = .ok ((code, ty), s')) :
    Called scope callee argc loweredArgs s wantValue code ty s' := by
  simp only [functionCall, stateT_bind_eq_ok, stateT_lift_eq_ok] at h
  obtain ⟨_, _, ⟨⟨name, f⟩, hf, ⟨⟩⟩, h⟩ := h
  split at h
  · simp [stateT_lift_eq_ok, at_ne_ok] at h
  next hargc =>
    have htakes : Takes f argc := by
      simp only [Bool.or_eq_true, Bool.and_eq_true, Bool.not_eq_true', decide_eq_true_eq,
        not_or, not_and, Nat.not_lt] at hargc
      exact hargc
    split at h
    · simp [stateT_lift_eq_ok, at_ne_ok] at h
    next hvoid =>
      simp only [stateT_bind_eq_ok] at h
      obtain ⟨args, s₁, hargs, h⟩ := h
      cases wantValue with
      | false =>
        simp only [Bool.false_eq_true, if_false, stateT_pure_eq_ok] at h
        obtain ⟨⟩ := h
        exact .effect hf htakes hargs
      | true =>
        have hret : f.ret ≠ .void := by simpa using hvoid
        simp only [if_true] at h
        split at h
        next hext =>
          simp only [stateT_bind_eq_ok, stateT_pure_eq_ok] at h
          obtain ⟨cell, s₂, hcell, ⟨⟩⟩ := h
          cases hcell
          exact .host hf htakes hargs hext hret
        next hext =>
          simp only [stateT_pure_eq_ok] at h
          obtain ⟨⟩ := h
          exact .compiled hf htakes hargs (by simpa using hext) hret

/-! ## Expressions and arguments -/

/-- The name of a label after `n` labels were given out. -/
def labelName (fn kind : String) (n : Nat) : String := fn ++ "." ++ kind ++ toString (n + 1)

/-- The labels of an operator that may skip its right side, after `n` labels. -/
def truthLabels (fn : String) (n : Nat) : TruthLabels :=
  ⟨labelName fn "true" n, labelName fn "false" (n + 1), labelName fn "end" (n + 2)⟩

/-- The supply after so many labels were given out. -/
def Supply.withLabels (s : Supply) (k : Nat) : Supply := { s with labels := s.labels + k }

/-- The forms of a lowered expression. Its code is given without places. -/
inductive Lowered (fn : String) (scope : Scope) (s : Supply) : Expr → Code → Ty → Supply → Prop
  | literal (v : Value) (loc : Location) :
    Lowered fn scope s (.literal v loc) (Code.ofInstrs [.push (.imm v)]) v.ty s
  | ident {name : String} {loc : Location} {src : Operand} {ty : Ty} :
    scalarOperand scope name loc = .ok (src, ty) →
    Lowered fn scope s (.ident name loc) (Code.ofInstrs [.push src]) ty s
  | member {base index : Expr} {loc : Location} {slot : Slot} {ty indexTy : Ty} {code : Code}
    {s' : Supply} : arraySlot scope base = .ok (slot, ty) →
    lower fn scope index s = .ok ((code, indexTy), s') → indexTy.isIntegral = true →
    Lowered fn scope s (.member base index loc)
      (code ++ Code.ofInstrs [.pop ix, .push (slot.operand (some .ix))]) ty s'
  | binary {op : BinaryOp} {left right : Expr} {loc : Location} {leftCode rightCode : Code}
    {leftTy rightTy ty : Ty} {s₁ s₂ : Supply} : isLogical op = false →
    lower fn scope left s = .ok ((leftCode, leftTy), s₁) →
    lower fn scope right s₁ = .ok ((rightCode, rightTy), s₂) →
    binaryType op leftTy rightTy = .ok ty →
    Lowered fn scope s (.binary op left right loc) (binaryCode op leftCode rightCode) ty s₂
  | and {left right : Expr} {loc : Location} {leftCode rightCode : Code} {leftTy rightTy ty : Ty}
    {s₁ s₂ : Supply} : lower fn scope left s = .ok ((leftCode, leftTy), s₁) →
    lower fn scope right s₁ = .ok ((rightCode, rightTy), s₂) →
    binaryType .and leftTy rightTy = .ok ty →
    Lowered fn scope s (.binary .and left right loc)
      (andCode (truthLabels fn s₂.labels) leftCode rightCode) ty (s₂.withLabels 3)
  | or {left right : Expr} {loc : Location} {leftCode rightCode : Code} {leftTy rightTy ty : Ty}
    {s₁ s₂ : Supply} : lower fn scope left s = .ok ((leftCode, leftTy), s₁) →
    lower fn scope right s₁ = .ok ((rightCode, rightTy), s₂) →
    binaryType .or leftTy rightTy = .ok ty →
    Lowered fn scope s (.binary .or left right loc)
      (orCode (truthLabels fn s₂.labels) (labelName fn "rhs" (s₂.labels + 3)) leftCode rightCode)
      ty (s₂.withLabels 4)
  | step {op : UnaryOp} {argument : Expr} {prefixed : Bool} {loc : Location} {address : Code}
    {dest : Operand} {t ty : Ty} {s' : Supply} : isStep op = true →
    Stepped scope (lowerIndex fn scope argument) s argument address dest t s' →
    unaryType op t = .ok ty →
    Lowered fn scope s (.unary op argument prefixed loc)
      (address ++ changeCode op prefixed true dest) ty s'
  | unary {op : UnaryOp} {argument : Expr} {prefixed : Bool} {loc : Location} {code : Code}
    {t ty : Ty} {s' : Supply} : isStep op = false →
    lower fn scope argument s = .ok ((code, t), s') → unaryType op t = .ok ty →
    Lowered fn scope s (.unary op argument prefixed loc) (unaryCode op code) ty s'
  | assign {left right : Expr} {loc : Location} {code : Code} {dest : Operand} {ty : Ty}
    {s' : Supply} :
    Assigned scope right (lowerIndex fn scope left) (lower fn scope right) s left code dest ty s' →
    Lowered fn scope s (.assign left right loc) (code ++ Code.ofInstrs [.push dest]) ty s'
  | call {callee : Expr} {args : List Expr} {loc : Location} {code : Code} {ty : Ty}
    {s' : Supply} : Called scope callee args.length (lowerArgs fn scope args) s true code ty s' →
    Lowered fn scope s (.call callee args loc) code ty s'

theorem atLoc_eq_ok {x : Lower (Code × Ty)} :
    atLoc loc x s = .ok ((code, ty), s') ↔
      ∃ c, x s = .ok ((c, ty), s') ∧ code = Code.located loc c := by
  simp only [atLoc, stateT_bind_eq_ok, stateT_pure_eq_ok]
  constructor
  · rintro ⟨⟨c, t⟩, s₁, hx, ⟨⟩⟩
    exact ⟨c, hx, rfl⟩
  · rintro ⟨c, hx, rfl⟩
    exact ⟨_, _, hx, rfl⟩

theorem shortCircuit_eq_ok {op : BinaryOp} {left right : Code}
    (h : shortCircuit fn op left right s = .ok (code, s')) :
    (op = .and ∧ code = andCode (truthLabels fn s.labels) left right ∧ s' = s.withLabels 3) ∨
      (op ≠ .and ∧ code = orCode (truthLabels fn s.labels) (labelName fn "rhs" (s.labels + 3)) left
        right ∧ s' = s.withLabels 4) := by
  by_cases hop : op = .and
  · subst hop
    cases h
    exact .inl ⟨rfl, rfl, rfl⟩
  · simp only [shortCircuit, if_neg hop] at h
    cases h
    exact .inr ⟨hop, rfl, rfl⟩

theorem lower_unary (fn : String) (scope : Scope) (op : UnaryOp) (argument : Expr) (prefixed : Bool)
    (loc : Location) :
    lower fn scope (.unary op argument prefixed loc) = atLoc loc (
      if isStep op then stepByOne scope op argument prefixed (lowerIndex fn scope argument) true
      else do
        let (code, ty) ← lower fn scope argument
        let ty ← Mistake.locate loc (unaryType op ty)
        return (unaryCode op code, ty)) := by
  cases argument <;> simp only [lower, lowerIndex]

theorem lower_assign (fn : String) (scope : Scope) (left right : Expr) (loc : Location) :
    lower fn scope (.assign left right loc) = atLoc loc
      (assignment scope left right (lowerIndex fn scope left) (lower fn scope right) true) := by
  cases left <;> simp only [lower, lowerIndex]

/-- **A lowered expression has one of the forms**, and each of its instructions has a place. -/
theorem lowered_of_lower (h : lower fn scope e s = .ok ((code, ty), s')) :
    ∃ c, code = Code.located e.loc c ∧ Lowered fn scope s e c ty s' := by
  cases e with
  | literal v loc =>
    obtain ⟨c, hc, rfl⟩ := atLoc_eq_ok.mp h
    cases hc
    exact ⟨_, rfl, .literal v loc⟩
  | ident name loc =>
    obtain ⟨c, hc, rfl⟩ := atLoc_eq_ok.mp h
    simp only [stateT_bind_eq_ok, stateT_lift_eq_ok, stateT_pure_eq_ok] at hc
    obtain ⟨_, _, ⟨⟨src, t⟩, hs, ⟨⟩⟩, ⟨⟩⟩ := hc
    exact ⟨_, rfl, .ident hs⟩
  | member base index loc =>
    rw [lower] at h
    obtain ⟨c, hc, rfl⟩ := atLoc_eq_ok.mp h
    simp only [stateT_bind_eq_ok, stateT_pure_eq_ok] at hc
    obtain ⟨⟨indexCode, slot, t⟩, s₁, he, ⟨⟩⟩ := hc
    obtain ⟨ha, indexTy, hi, hint⟩ := lowerElement_eq_ok.mp he
    exact ⟨_, rfl, .member ha hi hint⟩
  | binary op left right loc =>
    rw [lower] at h
    obtain ⟨c, hc, rfl⟩ := atLoc_eq_ok.mp h
    simp only [stateT_bind_eq_ok, stateT_lift_eq_ok, locate_eq_ok] at hc
    obtain ⟨⟨lc, lt⟩, s₁, hl, ⟨rc, rt⟩, s₂, hr, _, _, ⟨t, ht, ⟨⟩⟩, hc⟩ := hc
    refine ⟨c, rfl, ?_⟩
    -- `&&` and `||` share one branch of the compiler and differ only in their code
    split at hc
    next hlog =>
      simp only [stateT_bind_eq_ok, stateT_pure_eq_ok] at hc
      obtain ⟨c, s₃, hsc, ⟨⟩⟩ := hc
      rcases shortCircuit_eq_ok hsc with ⟨rfl, rfl, rfl⟩ | ⟨hne, rfl, rfl⟩
      · exact .and hl hr ht
      · obtain rfl : op = .or := by simpa [isLogical, hne] using hlog
        exact .or hl hr ht
    next hlog =>
      simp only [stateT_pure_eq_ok] at hc
      obtain ⟨⟩ := hc
      exact .binary (by simpa using hlog) hl hr ht
  | unary op argument prefixed loc =>
    rw [lower_unary] at h
    obtain ⟨c, hc, rfl⟩ := atLoc_eq_ok.mp h
    refine ⟨c, rfl, ?_⟩
    split at hc
    next hstep =>
      obtain ⟨address, dest, t, hst, hu, rfl⟩ := stepped_of_stepByOne hc
      exact .step hstep hst hu
    next hstep =>
      simp only [stateT_bind_eq_ok, stateT_lift_eq_ok, stateT_pure_eq_ok, locate_eq_ok] at hc
      obtain ⟨⟨ac, t⟩, s₁, ha, _, _, ⟨t', ht, ⟨⟩⟩, ⟨⟩⟩ := hc
      exact .unary (by simpa using hstep) ha ht
  | assign left right loc =>
    rw [lower_assign] at h
    obtain ⟨c, hc, rfl⟩ := atLoc_eq_ok.mp h
    obtain ⟨code, dest, ha, rfl⟩ := assigned_of_assignment hc
    exact ⟨_, rfl, .assign ha⟩
  | call callee args loc =>
    rw [lower] at h
    obtain ⟨c, hc, rfl⟩ := atLoc_eq_ok.mp h
    exact ⟨c, rfl, .call (called_of_functionCall hc)⟩

/-- The expressions whose code is a part of the code of an expression. -/
inductive Includes : Expr → Expr → Prop
  | left {op : BinaryOp} {left right : Expr} {loc : Location} :
    Includes (.binary op left right loc) left
  | right {op : BinaryOp} {left right : Expr} {loc : Location} :
    Includes (.binary op left right loc) right
  | argument {op : UnaryOp} {argument : Expr} {prefixed : Bool} {loc : Location} :
    Includes (.unary op argument prefixed loc) argument
  | stepIndex {op : UnaryOp} {argument base index : Expr} {prefixed : Bool} {loc loc' : Location} :
    argument = .member base index loc' → Includes (.unary op argument prefixed loc) index
  | placeIndex {left right base index : Expr} {loc loc' : Location} :
    left = .member base index loc' → Includes (.assign left right loc) index
  | assigned {left right : Expr} {loc : Location} : Includes (.assign left right loc) right
  | passed {callee arg : Expr} {args : List Expr} {loc : Location} : arg ∈ args →
    Includes (.call callee args loc) arg
  | index {base index : Expr} {loc : Location} : Includes (.member base index loc) index

theorem Includes.sizeOf_lt {e' : Expr} (h : Includes e e') : sizeOf e' < sizeOf e := by
  cases h with
  | passed harg =>
    have hlt := List.sizeOf_lt_of_mem harg
    simp only [Expr.call.sizeOf_spec]
    omega
  | stepIndex he | placeIndex he =>
    subst he
    simp only [Expr.unary.sizeOf_spec, Expr.assign.sizeOf_spec, Expr.member.sizeOf_spec]
    omega
  | _ =>
    simp only [Expr.binary.sizeOf_spec, Expr.unary.sizeOf_spec, Expr.assign.sizeOf_spec,
      Expr.member.sizeOf_spec]
    omega

/-- **Induction on lowered expressions**: the forms of the code, given the same for the code of all
parts. -/
@[elab_as_elim]
theorem lower_induct {P : Expr → Supply → Code → Ty → Supply → Prop}
    (step : ∀ {e s c ty s'}, lower fn scope e s = .ok ((Code.located e.loc c, ty), s') →
      Lowered fn scope s e c ty s' →
      (∀ {e'}, Includes e e' → ∀ ⦃s code ty s'⦄, lower fn scope e' s = .ok ((code, ty), s') →
        P e' s code ty s') → P e s (Code.located e.loc c) ty s') {e : Expr} {s s' : Supply}
    {code : Code} {ty : Ty} (h : lower fn scope e s = .ok ((code, ty), s')) :
    P e s code ty s' := by
  obtain ⟨c, rfl, hc⟩ := lowered_of_lower h
  exact step h hc fun hpart _ _ _ _ hr => lower_induct step hr
termination_by sizeOf e
decreasing_by exact hpart.sizeOf_lt

/-- An argument of a call: for a parameter of a given type, or beyond the parameters. -/
inductive Passed (fn : String) (scope : Scope) (s : Supply) (arg : Expr) :
    Option Ty → Code → Supply → Prop
  | param {ty : Ty} {code : Code} {s' : Supply} :
    Valued ty (lower fn scope arg) s arg code s' → Passed fn scope s arg (some ty) code s'
  | extra {ty : Ty} {code : Code} {s' : Supply} :
    lower fn scope arg s = .ok ((code, ty), s') → Passed fn scope s arg none code s'

theorem lowerArgs_nil_eq_ok {params : List Ty} :
    lowerArgs fn scope [] params s = .ok (code, s') ↔ code = [] ∧ s' = s := by
  rw [lowerArgs, stateT_pure_eq_ok, Prod.mk.injEq, eq_comm, @eq_comm _ s]

/-- The last argument is lowered first. -/
theorem passed_of_lowerArgs {arg : Expr} {rest : List Expr} {params : List Ty}
    (h : lowerArgs fn scope (arg :: rest) params s = .ok (code, s')) :
    ∃ after s₁ here, lowerArgs fn scope rest params.tail s = .ok (after, s₁) ∧
      Passed fn scope s₁ arg params.head? here s' ∧ code = after ++ here := by
  simp only [lowerArgs, stateT_bind_eq_ok] at h
  obtain ⟨after, s₁, hrest, h⟩ := h
  cases hp : params.head? with
  | none =>
    simp only [hp, stateT_bind_eq_ok, stateT_map_eq_ok, stateT_pure_eq_ok] at h
    obtain ⟨here, s₂, ⟨⟨c, t⟩, s₃, hl, ⟨⟩⟩, ⟨⟩⟩ := h
    exact ⟨after, s₁, _, hrest, .extra hl, rfl⟩
  | some ty =>
    simp only [hp, stateT_bind_eq_ok, stateT_pure_eq_ok] at h
    obtain ⟨here, s₂, hv, ⟨⟩⟩ := h
    exact ⟨after, s₁, _, hrest, .param (valued_of_valueFor hv), rfl⟩

/-- Whether an expression that is evaluated for its effect alone is lowered in a way of its own. -/
def hasEffect : Expr → Bool
  | .assign _ _ _ | .call _ _ _ => true
  | .unary op _ _ _ => isStep op
  | _ => false

/-- The forms of an expression that is lowered for its effect. -/
inductive Effected (fn : String) (scope : Scope) (s : Supply) : Expr → Code → Supply → Prop
  | assign {left right : Expr} {loc : Location} {code : Code} {dest : Operand} {ty : Ty}
    {s' : Supply} :
    Assigned scope right (lowerIndex fn scope left) (lower fn scope right) s left code dest ty s' →
    Effected fn scope s (.assign left right loc) code s'
  | call {callee : Expr} {args : List Expr} {loc : Location} {code : Code} {ty : Ty}
    {s' : Supply} : Called scope callee args.length (lowerArgs fn scope args) s false code ty s' →
    Effected fn scope s (.call callee args loc) code s'
  | step {op : UnaryOp} {argument : Expr} {prefixed : Bool} {loc : Location} {address : Code}
    {dest : Operand} {t ty : Ty} {s' : Supply} : isStep op = true →
    Stepped scope (lowerIndex fn scope argument) s argument address dest t s' →
    unaryType op t = .ok ty →
    Effected fn scope s (.unary op argument prefixed loc)
      (address ++ changeCode op prefixed false dest) s'
  | value {e : Expr} {code : Code} {ty : Ty} {s' : Supply} : hasEffect e = false →
    lower fn scope e s = .ok ((code, ty), s') →
    Effected fn scope s e (code ++ Code.ofInstrs [.pop r0]) s'

theorem effected_of_lowerEffect (h : lowerEffect fn scope e s = .ok (code, s')) :
    Effected fn scope s e code s' := by
  unfold lowerEffect at h
  split at h
  · simp only [stateT_bind_eq_ok, stateT_pure_eq_ok] at h
    obtain ⟨⟨c, ty⟩, s₁, ha, ⟨⟩⟩ := h
    obtain ⟨c, dest, hc, rfl⟩ := assigned_of_assignment ha
    rw [if_neg Bool.false_ne_true, List.append_nil]
    exact .assign hc
  · simp only [stateT_bind_eq_ok, stateT_pure_eq_ok] at h
    obtain ⟨⟨c, ty⟩, s₁, hc, ⟨⟩⟩ := h
    exact .call (called_of_functionCall hc)
  · split at h
    next hstep =>
      simp only [stateT_bind_eq_ok, stateT_pure_eq_ok] at h
      obtain ⟨⟨c, ty⟩, s₁, hs, ⟨⟩⟩ := h
      obtain ⟨address, dest, t, hst, hu, rfl⟩ := stepped_of_stepByOne hs
      exact .step hstep hst hu
    next hstep =>
      simp only [stateT_bind_eq_ok, stateT_pure_eq_ok] at h
      obtain ⟨⟨c, ty⟩, s₁, hl, ⟨⟩⟩ := h
      exact .value (by simpa [hasEffect] using hstep) hl
  next hassign hcall hunary =>
    simp only [stateT_bind_eq_ok, stateT_pure_eq_ok] at h
    obtain ⟨⟨c, ty⟩, s₁, hl, ⟨⟩⟩ := h
    refine .value ?_ hl
    cases e with
    | assign left right loc => exact absurd rfl (hassign left right loc)
    | call callee args loc => exact absurd rfl (hcall callee args loc)
    | unary op argument prefixed loc => exact absurd rfl (hunary op argument prefixed loc)
    | _ => rfl

/-! ## Operators -/

/-- Only numbers are stepped by one, and they stay what they are. -/
theorem number_of_step {op : UnaryOp} {t ty : Ty} (hop : isStep op = true)
    (h : unaryType op t = .ok ty) : ty = t ∧ (t = .int ∨ t = .double) := by
  cases op with
  | inc | dec => cases t <;> cases h <;> simp
  | neg | pos | not => cases hop

theorem stepCode_eq (op : UnaryOp) : stepCode op = .inc ∨ stepCode op = .dec := by
  unfold stepCode
  split
  · exact .inl rfl
  · exact .inr rfl

theorem boolean_of_logical {op : BinaryOp} {l r ty : Ty} (hop : isLogical op = true)
    (h : binaryType op l r = .ok ty) : ty = .boolean := by
  cases op with
  | and | or =>
    obtain ⟨_, -, rfl⟩ := map_eq_ok.mp h
    rfl
  | _ => cases hop

/-! ## What lowering draws -/

theorem ne_void_of_assignable {target source : Ty} (h : assignable target source = true) :
    target ≠ .void := by
  rintro rfl
  cases source <;> cases h

/-- Only labels and scratch cells were drawn from a supply. -/
inductive Draws (s : Supply) : Supply → Prop
  | refl : Draws s s
  | labels {s' : Supply} (k : Nat) : Draws s s' → Draws s (s'.withLabels k)
  | cell {s' : Supply} {ty : Ty} : ty ≠ .void → Draws s s' → Draws s (s'.withCell ty)

theorem Draws.trans {s'' : Supply} (h : Draws s s') (h' : Draws s' s'') : Draws s s'' := by
  induction h' with
  | refl => exact h
  | labels k _ ih => exact ih.labels k
  | cell hty _ ih => exact ih.cell hty

/-- An action that only draws labels and scratch cells. -/
def DrawsOnly {α : Type} (x : Lower α) : Prop := ∀ ⦃s a s'⦄, x s = .ok (a, s') → Draws s s'

section Draws

variable {scope : Scope} {s s' : Supply} {e left right : Expr} {code : Code} {dest : Operand}
  {ty : Ty} {lowered index rhs : Lower (Code × Ty)}

theorem Stored.draws (h : Stored scope dest ty lowered s e code s') (hl : DrawsOnly lowered) :
    Draws s s' := by
  cases h with
  | literal => exact .refl
  | ident => exact .refl
  | computed _ hr _ => exact hl hr

theorem Valued.draws (h : Valued ty lowered s e code s') (hl : DrawsOnly lowered) :
    Draws s s' := by
  cases h with
  | literal => exact .refl
  | same hr _ => exact hl hr
  | converted hr ha _ => exact (hl hr).cell (ne_void_of_assignable ha)

variable {fn : String}

theorem Passed.draws {param : Option Ty} (h : Passed fn scope s e param code s')
    (hl : DrawsOnly (lower fn scope e)) : Draws s s' := by
  cases h with
  | param hv => exact hv.draws hl
  | extra hx => exact hl hx

end Draws

end Stepwise.Lowering
