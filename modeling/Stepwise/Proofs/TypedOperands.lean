import Mathlib
import Stepwise.Proofs.Operators
import Stepwise.Proofs.Stages

/-!
# Operands and their types in a state

What a stage says of an operand is the case in a state of the program: the operand has a value of
its type, and a value that may be assigned to it can be stored. Only an index can lead to another
slot, so this is said of indices that stay inside their array.

## Main definitions

* `Temp.Has`, `Stage.Fits`: values are as a stage says
* `Spot`, `Shows`: the operands of compiled code, once variables have addresses, with their types
* `Vetted`: a typed setting with all that its code was checked for
* `Scene`: the innermost call of a state is as the stage at its address says
* `Hits`: a slot belongs to the array that an operand with an index names

## Main results

* `alu_of_aluType`: arithmetic on values of the right types
* `Scene.locate`: a slot that an operand names holds a value of its type
* `Scene.read`, `Scene.write`: reading and writing never go wrong for the sake of types
-/

namespace Stepwise

/-! ## Arithmetic on values of known types -/

/-- Operands had the wrong types. -/
def ArithmeticError.isTyping : ArithmeticError → Bool
  | .typeMismatch _ _ _ | .notArithmetic _ => true
  | .divisionByZero | .incomparable _ _ => false

section Arithmetic

variable {a b v : Value} {ty : Ty} {e : ArithmeticError}

theorem not_isTyping_of_numeric {op : OpCode} {ints : Int64 → Int64 → Except ArithmeticError Value}
    {doubles : Float → Float → Float}
    (hints : ∀ x y e, ints x y = .error e → e.isTyping = false) (ha : a.ty.isScalar = true)
    (hb : b.ty.isScalar = true) (h : numeric op ints doubles a b = .error e) :
    e.isTyping = false := by
  unfold numeric at h
  split at h
  · exact hints _ _ _ h
  · cases h
  next hnone =>
    -- two numbers can always be promoted
    cases a <;> cases ha <;> cases b <;> cases hb <;> cases hnone

theorem not_isTyping_of_bitwise {op : OpCode} {truths : Bool → Bool → Bool}
    {ints : Int64 → Int64 → Int64} (ha : a.ty.isIntegral = true) (hb : b.ty.isIntegral = true)
    (h : bitwise op truths ints a b = .error e) : e.isTyping = false := by
  cases a <;> cases ha <;> cases b <;> cases hb <;> cases h

theorem not_isTyping_of_ordering {r : Ordering → Value}
    (h : (ordering a b).map r = .error e) : e.isTyping = false := by
  have hcause : ordering a b = .error e := by
    cases ho : ordering a b with
    | error cause =>
      rw [ho] at h
      cases h
      rfl
    | ok o =>
      rw [ho] at h
      cases h
  unfold ordering at hcause
  simp only at hcause
  split at hcause
  · cases hcause
  · cases hcause
    rfl
  · cases hcause
    rfl
  · split at hcause
    · cases hcause
    · split at hcause
      · cases hcause
      · cases hcause
        rfl
    · cases hcause
      rfl

theorem binaryType_of_aluType {op : OpCode} {a b : Ty} (h : aluType op a b = some ty) :
    (∃ operator, binaryType operator a b = .ok ty ∧ ∀ x y, fold operator x y = alu op x y) ∨
      (op = .cp ∧ ty = .int) := by
  have hsome {operator : BinaryOp} (h : (binaryType operator a b).toOption = some ty) :
      binaryType operator a b = .ok ty := by
    cases hb : binaryType operator a b with
    | ok ty' =>
      rw [hb] at h
      cases h
      rfl
    | error cause =>
      rw [hb] at h
      cases h
  -- all operators of the machine but the comparison are operators of the language
  cases op with
  | add => exact .inl ⟨.add, hsome h, fun _ _ => rfl⟩
  | sub => exact .inl ⟨.sub, hsome h, fun _ _ => rfl⟩
  | mul => exact .inl ⟨.mul, hsome h, fun _ _ => rfl⟩
  | div => exact .inl ⟨.div, hsome h, fun _ _ => rfl⟩
  | and => exact .inl ⟨.bitAnd, hsome h, fun _ _ => rfl⟩
  | or => exact .inl ⟨.bitOr, hsome h, fun _ _ => rfl⟩
  | xor => exact .inl ⟨.bitXor, hsome h, fun _ _ => rfl⟩
  | cp =>
    obtain ⟨_, -, rfl⟩ := Option.map_eq_some_iff.mp h
    exact .inr ⟨rfl, rfl⟩
  | _ => cases h

/-- **Arithmetic on values of the right types** has a result of the right type, or fails for a reason
that no types could rule out. -/
theorem alu_of_aluType {op : OpCode} (h : aluType op a.ty b.ty = some ty) :
    (∀ v, alu op a b = .ok v → v.ty = ty) ∧ ∀ e, alu op a b = .error e → e.isTyping = false := by
  have hcheck {operator : BinaryOp} {accept : Ty → Bool} {result : Ty}
      (h : ((checkOperands operator accept a.ty b.ty).map fun _ => result).toOption = some ty) :
      accept a.ty = true ∧ accept b.ty = true := by
    cases hc : checkOperands operator accept a.ty b.ty with
    | ok u => exact checkOperands_eq_ok hc
    | error cause =>
      rw [hc] at h
      cases h
  -- results are typed as those of the operator; errors are gone through by hand
  refine ⟨?_, ?_⟩
  · intro v hv
    rcases binaryType_of_aluType h with ⟨operator, hty, hfold⟩ | ⟨rfl, rfl⟩
    · rw [← hfold] at hv
      exact ty_of_fold hty hv
    · obtain ⟨_, -, rfl⟩ := map_eq_ok.mp hv
      rfl
  · intro e he
    cases op with
    | add =>
      have htext : (a.isText || b.isText) = joinsTexts a.ty b.ty := by
        cases a <;> cases b <;> rfl
      simp only [aluType, binaryType] at h
      rw [alu, htext] at he
      split at he
      · cases he
      next hjoin =>
        rw [if_neg hjoin] at h
        obtain ⟨ha, hb⟩ := hcheck h
        exact not_isTyping_of_numeric (fun _ _ _ h => by cases h) ha hb he
    | sub | mul =>
      obtain ⟨ha, hb⟩ := hcheck h
      exact not_isTyping_of_numeric (fun _ _ _ h => by cases h) ha hb he
    | div =>
      obtain ⟨ha, hb⟩ := hcheck h
      refine not_isTyping_of_numeric ?_ ha hb he
      intro x y e he
      split at he
      · cases he
        rfl
      · cases he
    | and | or | xor =>
      obtain ⟨ha, hb⟩ := hcheck h
      exact not_isTyping_of_bitwise ha hb he
    | cp => exact not_isTyping_of_ordering he
    | _ => cases h

end Arithmetic

/-! ## What a stage says of values -/

/-- A value is as a stage says of a value on the stack. -/
def Temp.Has (temp : Temp) (v : Value) : Prop := ∀ ty, temp.ty = some ty → v.ty = ty

namespace Stage

/-- The values in registers have the types that are known of them. -/
def Fits (t : Stage) (rs : Registers) : Prop := ∀ r ty, t.regs r = some ty → (rs.get r).ty = ty

variable {t t' : Stage} {rs : Registers}

theorem Fits.weaker (h : t.Fits rs) (hw : t'.Weaker t) : t'.Fits rs :=
  fun r ty hr => h r ty (hw.regs hr)

theorem Fits.set (h : t.Fits rs) {ty : Option Ty} {v : Value} (x : Reg)
    (hv : ∀ ty', ty = some ty' → v.ty = ty') : (t.set x ty).Fits (rs.set x v) := by
  intro r ty' hr
  by_cases hx : r = x
  · subst hx
    rw [regs_set_self] at hr
    rw [Registers.get_set_self]
    exact hv ty' hr
  · rw [regs_set_of_ne hx] at hr
    rw [Registers.get_set_of_ne _ (Ne.symm hx)]
    exact h r ty' hr

/-- A register gets a value of the type that it has. -/
theorem Fits.keep (h : t.Fits rs) {v : Value} {x : Reg} (hv : v.ty = (rs.get x).ty) :
    t.Fits (rs.set x v) := by
  intro r ty hr
  by_cases hx : r = x
  · subst hx
    rw [Registers.get_set_self, hv]
    exact h r ty hr
  · rw [Registers.get_set_of_ne _ (Ne.symm hx)]
    exact h r ty hr

/-- Nothing is known of the registers after the call of a host function. -/
theorem fits_call_none (t : Stage) (argc : Nat) (rs : Registers) : (t.call argc none).Fits rs := by
  intro r ty hr
  by_cases hx : r = .rv
  · subst hx
    rw [regs_call_rv] at hr
    cases hr
  · rw [regs_call_of_ne hx] at hr
    cases hr

end Stage

namespace TypedSetting

/-! ## Operands with addresses -/

/-- An address of compiled code names slots for values of a type: a global variable or a scratch
cell, an element of a global array, a parameter, a local variable or an element of a local array. -/
inductive Spot (S : TypedSetting) (f : Routine) (t : Stage) : Ptr → Ty → Prop
  | global {o : Nat} {w : Value} : S.globals.values[o]? = some w →
    Spot S f t ⟨.global, o, none⟩ w.ty
  | globalElement {name : String} {v : Variable} {o : Nat} {ty : Ty} :
    S.names.get? name = some (.variable v) → v.slot = .global o → t.regs .ix = some ty →
    ty.isIntegral = true → Spot S f t ⟨.global, o, some .ix⟩ v.ty
  | param {k : Nat} {ty : Ty} : (S.header f).params[k]? = some ty →
    Spot S f t ⟨.frame, -((k : Int) + 1), none⟩ ty
  | local {key : String} {e : FrameEntry} : f.frame.entries.get? key = some e → 0 < e.offset →
    0 < e.span → e.offset + e.span ≤ t.slots → Spot S f t ⟨.frame, e.offset, none⟩ e.ty
  | localElement {key : String} {e : FrameEntry} {ty : Ty} : f.frame.entries.get? key = some e →
    0 < e.offset → 0 < e.span → e.offset + e.span ≤ t.slots → t.regs .ix = some ty →
    ty.isIntegral = true → Spot S f t ⟨.frame, e.offset, some .ix⟩ e.ty

/-- An operand of compiled code has values of a type. -/
inductive Shows (S : TypedSetting) (f : Routine) (t : Stage) : Operand → Ty → Prop
  | imm (v : Value) : Shows S f t (.imm v) v.ty
  | reg {x : Reg} {ty : Ty} : t.regs x = some ty → Shows S f t (.reg x) ty
  | spot {p : Ptr} {ty : Ty} : S.Spot f t p ty → Shows S f t (.ptr p) ty

variable {S : TypedSetting} {f : Routine} {t : Stage} {o : Operand} {ty : Ty}

/-- A place is a spot once its variable has an address. -/
theorem Place.spot (h : S.Place f t o ty) (op : OpCode) (pc : Nat) :
    ∃ p, o.settle S.program.labels f.frame op pc = .ptr p ∧ S.Spot f t p ty := by
  cases h with
  | global hw => exact ⟨_, rfl, .global hw⟩
  | globalElement hv hslot hix hint => exact ⟨_, rfl, .globalElement hv hslot hix hint⟩
  | @param key e k he ho hp =>
    refine ⟨_, ?_, .param hp⟩
    simp [Operand.settle, FrameLayout.offset?, he, ho]
  | «local» he hpos hspan hle =>
    refine ⟨_, ?_, .local he hpos hspan hle⟩
    simp [Operand.settle, FrameLayout.offset?, he]
  | localElement he hpos hspan hle hix hint =>
    refine ⟨_, ?_, .localElement he hpos hspan hle hix hint⟩
    simp [Operand.settle, FrameLayout.offset?, he]

theorem Sees.shows (h : S.Sees f t o ty) (op : OpCode) (pc : Nat) :
    S.Shows f t (o.settle S.program.labels f.frame op pc) ty := by
  cases h with
  | imm v => exact .imm v
  | reg hx => exact .reg hx
  | place hp =>
    obtain ⟨p, hp', hspot⟩ := hp.spot op pc
    rw [hp']
    exact .spot hspot

/-! ## The innermost call of a state -/

/-- A typed setting with all that its code was checked for. -/
structure Vetted (S : TypedSetting) : Prop where
  valid : S.toSetting.Valid
  labels : ∀ {l a}, S.program.labels.get? l = some a → a ≤ S.program.code.size
  globals : S.globals.Sound S.names
  frame : ∀ {f}, f ∈ S.routines → f.frame.Sound
  params : ∀ {f}, f ∈ S.routines → (S.header f).params.length = f.argc
  checks : ∀ {f pc}, f ∈ S.routines → f.Holds pc → S.Checks f pc
  admitted : ∀ {f}, f ∈ S.routines → S.Admitted f 1 1 f.entry f.code

/-- The innermost call of a state is as the stage at its address says: its arguments, the values on
top of its variables and those in registers have the types that the code knows. -/
structure Scene (S : TypedSetting) (f : Routine) (frame : CallFrame) (s : State) : Prop where
  active : Setting.Active s.stackTypes f frame s.pc s.bp s.sp
  globals : s.globalTypes = S.globals.values.map Value.ty
  params : ∀ k ty, (S.header f).params[k]? = some ty → s.stackTypes[s.bp - (k + 1)]? = some ty
  temps : ∀ k temp, (S.stage f s.pc).temps[k]? = some temp →
    ∃ v, s.stack[s.sp - (k + 1)]? = some v ∧ temp.Has v
  regs : (S.stage f s.pc).Fits s.registers

/-- A slot belongs to the array that an address with an index names. -/
def Hits (S : TypedSetting) (f : Routine) (s : State) (p : Ptr) (k : Nat) : Prop :=
  match p.base with
  | .global => ∃ (o span : Nat) (ty : Ty), p.offset = o ∧ S.globals.Block o span ty ∧ o ≤ k ∧
    k < o + span
  | .frame => ∃ key e, f.frame.entries.get? key = some e ∧ e.offset = p.offset ∧
    e.Covers ((k : Int) - s.bp)

variable {frame : CallFrame} {s s' : State} {p : Ptr} {k : Nat} {v : Value}

/-- An address without an index is its base and its offset. -/
theorem eq_of_locate {base : Base} {offset : Int} (h : s.locate ⟨base, offset, none⟩ = .ok (k, v)) :
    k = ((s.origin base : Int) + offset).toNat := by
  simp only [State.locate, State.indexValue, bind_eq_ok] at h
  obtain ⟨_, ⟨⟩, h⟩ := h
  split at h
  · split at h
    · cases h
      rw [Int.add_zero]
    · cases h
  · cases h

/-- An address leads out of its region at worst, if its index is an integer. -/
theorem outOfBounds_of_locate {e : Fault}
    (hix : ∀ x, p.index = some x → (s.registers.get x).ty.isIntegral = true)
    (h : s.locate p = .error e) : ∃ slot, e = .outOfBounds p slot := by
  have hindex : ∃ n, s.indexValue p.index = .ok n := by
    cases hx : p.index with
    | none => exact ⟨0, rfl⟩
    | some x =>
      have hint := hix x hx
      cases hv : s.registers.get x with
      | int n => exact ⟨n.toInt, by simp [State.indexValue, hv, Value.toInt?]⟩
      | bool b => exact ⟨_, by simp [State.indexValue, hv, Value.toInt?]; rfl⟩
      | double d =>
        rw [hv] at hint
        cases hint
      | str text =>
        rw [hv] at hint
        cases hint
  obtain ⟨n, hn⟩ := hindex
  simp only [State.locate, hn, bind, Except.bind] at h
  split at h
  · split at h
    · cases h
    · cases h
      exact ⟨_, rfl⟩
  · cases h
    exact ⟨_, rfl⟩

namespace Scene

/-- A reserved slot holds a value of the type of the variable that covers it. -/
theorem ty_of_covers (hS : S.Vetted) (hf : f ∈ S.routines) (h : S.Scene f frame s) {key : String}
    {e : FrameEntry} {n : Nat} (he : f.frame.entries.get? key = some e) (hn : e.Covers n)
    (hpos : 0 < n) (hlt : n < f.slots s.pc) (hv : s.stack[s.bp + n]? = some v) : v.ty = e.ty := by
  obtain ⟨ty, hty, key', e', he', hn', rfl⟩ := h.active.typed n hpos hlt
  -- the slot has one owner
  obtain rfl := (hS.frame hf).separate he' he hn' hn
  cases he.symm.trans he'
  rw [State.stackTypes, Array.getElem?_map, hv] at hty
  exact Option.some.inj hty

theorem ty_of_block (h : S.Scene f frame s) {offset span n : Nat}
    (hb : S.globals.Block offset span ty) (hle : offset ≤ n) (hlt : n < offset + span)
    (hv : s.globals[n]? = some v) : v.ty = ty := by
  obtain ⟨w, hw, hty⟩ := hb (n - offset) (by omega)
  rw [Nat.add_sub_cancel' hle] at hw
  have htypes := congrArg (·[n]?) h.globals
  simp only [State.globalTypes, Array.getElem?_map, hw, hv, Option.map_some] at htypes
  exact (Option.some.inj htypes).trans hty

/-- **A slot that an operand names holds a value of its type.** In the frame it belongs to an
argument or to a reserved variable. -/
theorem locate (hS : S.Vetted) (hf : f ∈ S.routines) (h : S.Scene f frame s)
    (hspot : S.Spot f (S.stage f s.pc) p ty) (hhit : p.index ≠ none → S.Hits f s p k)
    (hl : s.locate p = .ok (k, v)) :
    v.ty = ty ∧ (p.base = .frame → s.bp ≤ k + f.argc ∧ k < s.bp + f.slots s.pc) := by
  have hslot := State.getElem?_of_locate hl
  have hslots := slots_stage (S := S) h.active.holds
  cases hspot with
  | @global o w hw =>
    refine ⟨?_, by simp⟩
    obtain rfl := eq_of_locate hl
    have hblock : S.globals.Block o 1 w.ty := by
      intro j hj
      obtain rfl : j = 0 := by omega
      exact ⟨w, hw, rfl⟩
    exact h.ty_of_block hblock (by simp [State.origin]) (by simp [State.origin]) hslot
  | @globalElement name x o _ hx hslot' _ _ =>
    refine ⟨?_, by simp⟩
    obtain ⟨o', span, ty', ho, hb, hle, hlt⟩ := hhit (by simp)
    obtain rfl := Int.ofNat.inj ho
    obtain ⟨o₁, hslot₁, hspan, hblock⟩ := hS.globals.declared hx
    cases hslot'.symm.trans hslot₁
    -- both blocks have the first slot
    obtain ⟨w, hw, hty⟩ := hb 0 (by omega)
    obtain ⟨w', hw', hty'⟩ := hblock 0 hspan
    cases hw.symm.trans hw'
    rw [← hty', hty]
    exact h.ty_of_block hb hle hlt hslot
  | @param j ty hj =>
    obtain rfl := eq_of_locate hl
    have hlt : j < f.argc := by
      rw [← hS.params hf]
      exact (List.getElem?_eq_some_iff.mp hj).1
    have hle := h.active.argc_le
    have hpos := Setting.slots_pos f s.pc
    have hindex : ((s.origin .frame : Int) + -((j : Int) + 1)).toNat = s.bp - (j + 1) := by
      simp only [State.origin]
      omega
    rw [hindex] at hslot ⊢
    refine ⟨?_, fun _ => by omega⟩
    have hty := h.params j ty hj
    rw [State.stackTypes, Array.getElem?_map] at hty
    obtain ⟨w, hw, hwty⟩ := Option.map_eq_some_iff.mp hty
    cases hslot.symm.trans hw
    exact hwty
  | @«local» key e he hpos hspan hle =>
    obtain rfl := eq_of_locate hl
    rw [hslots] at hle
    have hindex : ((s.origin .frame : Int) + e.offset).toNat = s.bp + e.offset.toNat := by
      simp only [State.origin]
      omega
    rw [hindex] at hslot ⊢
    refine ⟨?_, fun _ => by omega⟩
    have hcovers : e.Covers e.offset.toNat := by
      constructor <;> omega
    exact h.ty_of_covers hS hf he hcovers (by omega) (by omega) hslot
  | @localElement key e _ he hpos hspan hle _ _ =>
    obtain ⟨key', e', he', hoffset, hcovers⟩ := hhit (by simp)
    rw [hslots] at hle
    -- both variables have the first slot, so they are one
    have hfirst : e.Covers e.offset := ⟨le_rfl, by omega⟩
    have hfirst' : e'.Covers e.offset := by
      obtain ⟨h₁, h₂⟩ := hcovers
      simp only at hoffset
      exact ⟨hoffset.le, by omega⟩
    obtain rfl := (hS.frame hf).separate he' he hfirst' hfirst
    cases he.symm.trans he'
    obtain ⟨h₁, h₂⟩ := hcovers
    refine ⟨?_, fun _ => by omega⟩
    have hcovers' : e.Covers ((k - s.bp : Nat) : Int) := by
      constructor <;> omega
    refine h.ty_of_covers hS hf he hcovers' (by omega) (by omega) ?_
    rwa [Nat.add_sub_cancel' (by omega)]

theorem isIntegral_index (h : S.Scene f frame s) (hspot : S.Spot f (S.stage f s.pc) p ty) {x : Reg}
    (hx : p.index = some x) : (s.registers.get x).ty.isIntegral = true := by
  cases hspot with
  | global | param | «local» => cases hx
  | globalElement _ _ hix hint | localElement _ _ _ _ hix hint =>
    cases hx
    rwa [h.regs _ _ hix]

/-- What is read has the type of its operand, and an index out of range is all that can go wrong. -/
theorem read (hS : S.Vetted) (hf : f ∈ S.routines) (h : S.Scene f frame s)
    (ho : S.Shows f (S.stage f s.pc) o ty)
    (hhit : ∀ p k v, o = .ptr p → p.index ≠ none → s.locate p = .ok (k, v) → S.Hits f s p k) :
    (∀ v, s.read o = .ok v → v.ty = ty) ∧
      ∀ e, s.read o = .error e → ∃ p slot, e = .outOfBounds p slot := by
  cases ho with
  | imm v => exact ⟨fun w hw => by cases hw; rfl, fun e he => by cases he⟩
  | reg hx =>
    refine ⟨?_, fun e he => by cases he⟩
    intro v hv
    cases hv
    exact h.regs _ _ hx
  | @spot p ty hspot =>
    refine ⟨?_, ?_⟩
    · intro v hv
      obtain ⟨⟨k, w⟩, hl, rfl⟩ := map_eq_ok.mp hv
      exact (h.locate hS hf hspot (fun hne => hhit p k w rfl hne hl) hl).1
    · intro e he
      have hl : s.locate p = .error e := by
        simp only [State.read] at he
        cases hl : s.locate p with
        | ok r =>
          rw [hl] at he
          cases he
        | error cause =>
          rw [hl] at he
          cases he
          rfl
      obtain ⟨slot, rfl⟩ := outOfBounds_of_locate (fun x hx => h.isIntegral_index hspot hx) hl
      exact ⟨p, slot, rfl⟩

/-- A value that may be assigned to an operand can be stored there, unless an index is out of
range. -/
theorem write (hS : S.Vetted) (hf : f ∈ S.routines) (h : S.Scene f frame s)
    (hspot : S.Spot f (S.stage f s.pc) p ty) (ha : assignable ty v.ty = true)
    (hhit : ∀ k w, p.index ≠ none → s.locate p = .ok (k, w) → S.Hits f s p k) {e : Fault}
    (he : s.write (.ptr p) v = .error e) : ∃ slot, e = .outOfBounds p slot := by
  simp only [State.write, bind_eq_error] at he
  rcases he with he | ⟨⟨k, old⟩, hl, he | ⟨w, -, ⟨⟩⟩⟩
  · exact outOfBounds_of_locate (fun x hx => h.isIntegral_index hspot hx) he
  · -- the slot has the type of the operand, and the value can be converted to it
    obtain ⟨hty, -⟩ := h.locate hS hf hspot (fun hne => hhit k old hne hl) hl
    rw [hty] at he
    obtain ⟨w, hw⟩ := exists_coerce ha
    rw [hw] at he
    cases he

end Scene

/-! ## What a step leaves alone -/

/-- A state of the same call that differs from another one in registers, in global slots and in the
variables of the call only. -/
structure Spares (f : Routine) (s s' : State) : Prop where
  alike : s.Alike s'
  kept : ∀ n, n + f.argc < s.bp ∨ s.bp + f.slots s.pc ≤ n → s'.stack[n]? = s.stack[n]?

theorem Spares.refl (f : Routine) (s : State) : Spares f s s := ⟨.refl s, fun _ _ => rfl⟩

theorem spares_setRegister (f : Routine) (s : State) (x : Reg) (v : Value) :
    Spares f s (s.setRegister x v) := ⟨State.alike_setRegister s x v, fun _ _ => rfl⟩

/-- A write to a variable. -/
theorem Scene.spares (hS : S.Vetted) (hf : f ∈ S.routines) (h : S.Scene f frame s)
    (hspot : S.Spot f (S.stage f s.pc) p ty)
    (hhit : ∀ k w, p.index ≠ none → s.locate p = .ok (k, w) → S.Hits f s p k)
    (hw : s.write (.ptr p) v = .ok s') : Spares f s s' ∧ s'.registers = s.registers := by
  have halike := State.alike_of_write hw
  simp only [State.write, bind_eq_ok] at hw
  obtain ⟨⟨k, old⟩, hl, new, -, ⟨⟩⟩ := hw
  obtain ⟨-, hrange⟩ := h.locate hS hf hspot (fun hne => hhit k old hne hl) hl
  cases hbase : p.base with
  | global => exact ⟨⟨by rw [hbase] at halike; exact halike, fun _ _ => rfl⟩, rfl⟩
  | frame =>
    refine ⟨⟨by rw [hbase] at halike; exact halike, ?_⟩, rfl⟩
    intro n hn
    have hrange' := hrange hbase
    have hne : k ≠ n := by omega
    exact Array.getElem?_setIfInBounds_ne hne

end TypedSetting

end Stepwise
