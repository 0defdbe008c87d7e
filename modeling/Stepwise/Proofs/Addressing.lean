import Mathlib
import Stepwise.Proofs.StraightCode

/-!
# Addresses

An address is added up in two steps that may each overflow a machine word, and the sum is compared
with the bounds of its region. Together the checks come to exact arithmetic: no sum that wraps
around names a slot, and no slot that the exact sum names is refused.

## Main definitions

* `IsWord`: the integers of 64 bits
* `State.HasSlot`: the numbers of the slots of a region

## Main results

* `State.locate_eq_ok_iff`, `State.locate_eq_error`: when an address names a slot, and what is
  reported when it does not
* `State.write_ptr_eq_ok`: a write to memory is a conversion and a replaced slot
* `addresses_exact`: the three together, with what a read finds after a write
-/

namespace Stepwise

/-- The integers that are machine words. -/
def IsWord (n : Int) : Prop := -2 ^ 63 ≤ n ∧ n < 2 ^ 63

instance (n : Int) : Decidable (IsWord n) := inferInstanceAs (Decidable (_ ∧ _))

theorem fitsWord_iff {n : Int} : Decimal.fitsWord n = true ↔ IsWord n := by
  rw [Decimal.fitsWord, Bool.and_eq_true, decide_eq_true_iff, decide_eq_true_iff, Decimal.minWord,
    Decimal.maxWord, IsWord]
  omega

namespace State

variable {s s' : State} {p : Ptr} {base : Base} {i index : Int} {k : Nat} {v w old : Value}

/-- An integer is the number of a slot. -/
def HasSlot (s : State) (base : Base) (i : Int) : Prop := 0 ≤ i ∧ i < (s.region base).size

instance (s : State) (base : Base) (i : Int) : Decidable (s.HasSlot base i) :=
  inferInstanceAs (Decidable (_ ∧ _))

theorem slot?_eq_some_iff :
    s.slot? base i = some v ↔ 0 ≤ i ∧ (s.region base)[i.toNat]? = some v := by
  unfold slot?
  split
  next hi => simp [hi]
  next hi => simp [hi]

theorem exists_slot?_iff : (∃ v, s.slot? base i = some v) ↔ s.HasSlot base i := by
  constructor
  · rintro ⟨v, hv⟩
    obtain ⟨hi, hv⟩ := slot?_eq_some_iff.mp hv
    have hlt := (Array.getElem?_eq_some_iff.mp hv).1
    exact ⟨hi, by omega⟩
  · rintro ⟨hi, hlt⟩
    have hlt' : i.toNat < (s.region base).size := by omega
    exact ⟨_, slot?_eq_some_iff.mpr ⟨hi, Array.getElem?_eq_getElem hlt'⟩⟩

/-- An integer or a truth value can be an index. -/
theorem exists_indexValue
    (h : ∀ r, p.index = some r → (s.registers.get r).ty.isIntegral = true) :
    ∃ index, s.indexValue p.index = .ok index := by
  cases hreg : p.index with
  | none => exact ⟨0, rfl⟩
  | some r =>
    obtain ⟨n, hn⟩ := Value.exists_toInt? (h r hreg)
    exact ⟨n.toInt, by simp only [indexValue, hn]⟩

/-- **An address that is found is the exact sum.** -/
theorem exact_of_locate (hindex : s.indexValue p.index = .ok index)
    (h : s.locate p = .ok (k, v)) :
    (k : Int) = s.origin p.base + p.offset + index ∧ k < (s.region p.base).size ∧
      (s.region p.base)[k]? = some v := by
  obtain ⟨i, hi, -, hslot, rfl⟩ := locate_eq_ok.mp h
  cases hindex.symm.trans hi
  obtain ⟨hnonneg, hv⟩ := slot?_eq_some_iff.mp hslot
  exact ⟨Int.toNat_of_nonneg hnonneg, (Array.getElem?_eq_some_iff.mp hv).1, hv⟩

section Word

variable (hindex : s.indexValue p.index = .ok index) (hstart : IsWord (s.origin p.base + p.offset))

include hindex hstart

/-- **An address is found exactly if the sum is the number of a slot**, as long as the first partial
sum is a machine word. The second sum need not be looked at: a slot it names has a smaller number. -/
theorem locate_eq_ok_iff :
    (∃ k v, s.locate p = .ok (k, v)) ↔ s.HasSlot p.base (s.origin p.base + p.offset + index) := by
  rw [← exists_slot?_iff]
  constructor
  · rintro ⟨k, v, h⟩
    obtain ⟨i, hi, -, hslot, -⟩ := locate_eq_ok.mp h
    cases hindex.symm.trans hi
    exact ⟨v, hslot⟩
  · rintro ⟨v, hslot⟩
    refine ⟨_, v, locate_eq_ok.mpr ⟨index, hindex, ?_, hslot, rfl⟩⟩
    rw [fitsWord_iff.mpr hstart, Bool.true_or]

/-- What is reported of any other address. -/
theorem locate_eq_error (hnone : ¬ s.HasSlot p.base (s.origin p.base + p.offset + index)) :
    s.locate p = .error (.outOfBounds p
      (if IsWord (s.origin p.base + p.offset + index) then s.origin p.base + p.offset + index
        else index)) := by
  have hslot : s.slot? p.base (s.origin p.base + p.offset + index) = none := by
    rw [Option.eq_none_iff_forall_ne_some]
    intro v hv
    exact hnone (exists_slot?_iff.mp ⟨v, hv⟩)
  have hword : Decimal.fitsWord (s.origin p.base + p.offset) = true := fitsWord_iff.mpr hstart
  simp only [locate, hindex, bind, Except.bind, hword, Bool.true_or, if_true, hslot, fitsWord_iff]

end Word

/-- A write to memory converts to the type of the slot and replaces its content. -/
theorem write_ptr_eq_ok : s.write (.ptr p) v = .ok s' ↔ ∃ k old w, s.locate p = .ok (k, old) ∧
    coerce old.ty v = .ok w ∧ s' = s.setSlot p.base k w := by
  simp only [write, bind_eq_ok, liftConversion_eq_ok]
  constructor
  · rintro ⟨⟨k, old⟩, hlocate, w, hw, ⟨⟩⟩
    exact ⟨k, old, w, hlocate, hw, rfl⟩
  · rintro ⟨k, old, w, hlocate, hw, rfl⟩
    exact ⟨(k, old), hlocate, w, hw, rfl⟩

/-- No other cell changes. -/
theorem region_setSlot_of_ne {base' : Base} {j : Nat} (h : (base', j) ≠ (base, k)) :
    ((s.setSlot base k w).region base')[j]? = (s.region base')[j]? := by
  cases base <;> cases base'
  · exact Array.getElem?_setIfInBounds_ne fun hj => h (by rw [hj])
  · rfl
  · rfl
  · exact Array.getElem?_setIfInBounds_ne fun hj => h (by rw [hj])

/-- Where an address leads depends on the memory, the base pointer and the index register. -/
theorem locate_congr (hbp : s'.bp = s.bp) (hstack : s'.stack = s.stack)
    (hglobals : s'.globals = s.globals)
    (hindex : ∀ r, p.index = some r → s'.registers.get r = s.registers.get r) :
    s'.locate p = s.locate p := by
  have hslot (base : Base) (i : Int) : s'.slot? base i = s.slot? base i := by
    cases base
    · simp only [slot?, region, hstack]
    · simp only [slot?, region, hglobals]
  have horigin (base : Base) : s'.origin base = s.origin base := by
    cases base
    · exact hbp
    · rfl
  have hvalue : s'.indexValue p.index = s.indexValue p.index := by
    cases hreg : p.index with
    | none => rfl
    | some r => simp only [indexValue, hindex r hreg]
  simp only [locate, hvalue, hslot, horigin]

/-- The written slot is read back in every later state that has the memory and the index. -/
theorem read_setSlot {t : State} (h : s.locate p = .ok (k, old)) (w : Value)
    (hbp : t.bp = s.bp) (hstack : t.stack = (s.setSlot p.base k w).stack)
    (hglobals : t.globals = (s.setSlot p.base k w).globals)
    (hindex : ∀ r, p.index = some r → t.registers.get r = s.registers.get r) :
    t.read (.ptr p) = .ok w := by
  have hcontrol := Target.sameControl_setSlot s p.base k w
  have hlocate : t.locate p = (s.setSlot p.base k w).locate p := by
    apply locate_congr (hbp.trans hcontrol.bp.symm) hstack hglobals
    intro r hr
    rw [hcontrol.registers, hindex r hr]
  exact map_eq_ok.mpr ⟨_, hlocate.trans (locate_setSlot h w), rfl⟩

end State

/-- **Addresses are exact up to the limits of a machine word.** For an index register that holds an
integer or a truth value, or none: a slot that is found is the one that base, offset and index add
up to, and lies in its region; if base and offset add up to a machine word, a slot is found exactly
if the sum is the number of one, and else the sum is reported, or the index if the sum is not a
machine word. After a write, the same address reads the converted value as long as the index is the
same, and no other cell has changed. -/
theorem addresses_exact (s : State) (p : Ptr)
    (hintegral : ∀ r, p.index = some r → (s.registers.get r).ty.isIntegral = true) :
    ∃ index : Int, s.indexValue p.index = .ok index ∧
      (∀ k v, s.locate p = .ok (k, v) →
        (k : Int) = s.origin p.base + p.offset + index ∧ k < (s.region p.base).size ∧
          (s.region p.base)[k]? = some v) ∧
      (IsWord (s.origin p.base + p.offset) →
        ((∃ k v, s.locate p = .ok (k, v)) ↔
          s.HasSlot p.base (s.origin p.base + p.offset + index)) ∧
        (¬ s.HasSlot p.base (s.origin p.base + p.offset + index) →
          s.locate p = .error (.outOfBounds p
            (if IsWord (s.origin p.base + p.offset + index)
              then s.origin p.base + p.offset + index else index)))) ∧
      ∀ v s', s.write (.ptr p) v = .ok s' →
        ∃ k old w, s.locate p = .ok (k, old) ∧ coerce old.ty v = .ok w ∧
          s'.read (.ptr p) = .ok w ∧
          (∀ t : State, t.bp = s'.bp → t.stack = s'.stack → t.globals = s'.globals →
            (∀ r, p.index = some r → t.registers.get r = s.registers.get r) →
            t.read (.ptr p) = .ok w) ∧
          ∀ base i, (base, i) ≠ (p.base, k) → (s'.region base)[i]? = (s.region base)[i]? := by
  obtain ⟨index, hindex⟩ := State.exists_indexValue hintegral
  refine ⟨index, hindex, fun k v => State.exact_of_locate hindex, fun hstart => ?_, ?_⟩
  · exact ⟨State.locate_eq_ok_iff hindex hstart, State.locate_eq_error hindex hstart⟩
  · intro v s' hwrite
    obtain ⟨k, old, w, hlocate, hw, rfl⟩ := State.write_ptr_eq_ok.mp hwrite
    have hcontrol := Target.sameControl_setSlot s p.base k w
    refine ⟨k, old, w, hlocate, hw, ?_, fun t hbp hstack hglobals hindex => ?_, fun base i h => ?_⟩
    · apply State.read_setSlot hlocate w hcontrol.bp rfl rfl
      intro r _
      rw [hcontrol.registers]
    · exact State.read_setSlot hlocate w (hbp.trans hcontrol.bp) hstack hglobals hindex
    · exact State.region_setSlot_of_ne h

/-- A state whose index register holds the greatest machine word. -/
def farIndex : State :=
  { State.initial #[] with
    bp := 1
    stack := #[.int 0, .int 0, .int 0]
    registers := Registers.initial.set .ix (.int Int64.maxValue) }

/-- An index beyond all slots is reported as it is: the sum does not wrap around to one. -/
theorem addresses_exact_farIndex :
    (farIndex.registers.get .ix).ty.isIntegral = true ∧
    farIndex.locate ⟨.frame, 1, some .ix⟩ =
      .error (.outOfBounds ⟨.frame, 1, some .ix⟩ Int64.maxValue.toInt) := by
  have hint : (farIndex.registers.get .ix).ty.isIntegral = true := by rfl
  obtain ⟨index, hindex, -, hlimits, -⟩ := addresses_exact farIndex ⟨.frame, 1, some .ix⟩
    (by rintro r ⟨⟩; exact hint)
  have hmax : index = Int64.maxValue.toInt := by
    cases hindex
    rfl
  rw [hmax] at hlimits
  exact ⟨hint, (hlimits (by decide)).2 (by decide)⟩

end Stepwise
