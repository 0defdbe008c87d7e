import Mathlib
import Stepwise.Proofs.Simulation

/-!
# Variables in memory

A variable of an evaluation is a row of cells, and the machine carries the row in the slots of the
variable. Reading and writing a cell of it does the same on both sides.

## Main definitions

* `Slot.start?`: where the slots of a variable start
* `Target.SameControl`: two states that differ in memory only

## Main results

* `Carries.set`, `Carries.beside`: a write into a row, and beside it
* `Target.fetch_of_carries`, `Target.put_of_carries`: a variable is read and written alike on both
  sides
-/

namespace Stepwise

open Reference

/-! ## Rows -/

/-- Where the slots of a variable start. -/
def Slot.start? (frame : FrameLayout) : Slot → Option (Base × Int)
  | .global offset => some (.global, offset)
  | .frame key => (frame.offset? key).map (.frame, ·)

theorem settle_slot {frame : FrameLayout} {slot : Slot} {base : Base} {offset : Int}
    (h : slot.start? frame = some (base, offset)) (index : Option Reg) (labels : Table Nat)
    (op : OpCode) (pc : Nat) :
    (slot.operand index).settle labels frame op pc = .ptr ⟨base, offset, index⟩ := by
  cases slot with
  | global o =>
    cases h
    rfl
  | frame key =>
    obtain ⟨o, ho, ⟨⟩⟩ := Option.map_eq_some_iff.mp h
    simp [Slot.operand, Operand.settle, ho]

/-- A cell of a row has the type of the row. -/
theorem Reference.Row.ty_of_get? (r : Row) {i : Int} {v : Value} (h : r.get? i = some v) :
    v.ty = r.ty := by
  unfold get? at h
  split at h
  · exact r.typed v (List.mem_of_getElem? h)
  · cases h

/-- The written cell holds what was written. -/
theorem Reference.Row.get?_set_self (r : Row) {i : Int} {w : Value} (h : (r.get? i).isSome)
    (hw : w.ty = r.ty) : (r.set i.toNat w hw).get? i = some w := by
  unfold get? at h ⊢
  split at h
  next hi =>
    rw [if_pos hi]
    obtain ⟨old, hold⟩ := Option.isSome_iff_exists.mp h
    exact List.getElem?_set_self (List.getElem?_eq_some_iff.mp hold).1
  · cases h

/-- A table with a row for each of some names for which there is one. -/
theorem Reference.exists_rows (p : String → Row → Prop) (names : List String) :
    ∃ t : Table Row, ∀ name ∈ names, (∃ row, p name row) →
      ∃ row, t.get? name = some row ∧ p name row := by
  induction names with
  | nil => exact ⟨.empty, by simp⟩
  | cons head names ih =>
    obtain ⟨t, ht⟩ := ih
    by_cases hhead : ∃ row, p head row
    · obtain ⟨row, hrow⟩ := hhead
      refine ⟨t.insert head row, fun name hmem hp => ?_⟩
      by_cases hname : name = head
      · subst hname
        exact ⟨row, Table.get?_insert_self _ _ _, hrow⟩
      · rw [Table.get?_insert_of_ne _ hname]
        exact ht name (List.mem_of_ne_of_mem hname hmem) hp
    · refine ⟨t, fun name hmem hp => ht name (List.mem_of_ne_of_mem ?_ hmem) hp⟩
      rintro rfl
      exact hhead hp

/-! ## Slots -/

namespace State

variable {s : State} {base base' : Base} {offset : Int} {row : Row} {w : Value}

@[simp]
theorem origin_setSlot (i : Nat) : (s.setSlot base i w).origin base' = s.origin base' := by
  cases base <;> rfl

/-- The written slot holds what was written. -/
theorem slot?_setSlot_self {i : Int} (h : (s.slot? base i).isSome) :
    (s.setSlot base i.toNat w).slot? base i = some w := by
  unfold slot? at h ⊢
  split at h
  next hi =>
    have hlt : i.toNat < (s.region base).size := by
      rw [Option.isSome_iff_exists] at h
      obtain ⟨v, hv⟩ := h
      exact (Array.getElem?_eq_some_iff.mp hv).1
    rw [if_pos hi]
    cases base <;> exact Array.getElem?_setIfInBounds_self_of_lt hlt
  · cases h

/-- Every other slot is as it was. -/
theorem slot?_setSlot_of_ne {i k : Int} (hi : 0 ≤ i) (h : base = base' → i ≠ k) :
    (s.setSlot base i.toNat w).slot? base' k = s.slot? base' k := by
  unfold slot?
  split
  next hk =>
    cases base <;> cases base'
    · have hne : i.toNat ≠ k.toNat := by
        have := h rfl
        omega
      simp [setSlot, region, Array.getElem?_setIfInBounds_ne hne]
    · rfl
    · rfl
    · have hne : i.toNat ≠ k.toNat := by
        have := h rfl
        omega
      simp [setSlot, region, Array.getElem?_setIfInBounds_ne hne]
  · rfl

theorem nonneg_of_slot? {i : Int} {v : Value} (h : s.slot? base i = some v) : 0 ≤ i := by
  unfold slot? at h
  split at h
  · assumption
  · cases h

/-- A cell of a row that lies in memory. -/
theorem Carries.slot? (h : s.Carries base offset row) {i : Int} {v : Value}
    (hv : row.get? i = some v) : s.slot? base (s.origin base + offset + i) = some v := by
  unfold Row.get? at hv
  split at hv
  next hi =>
    obtain ⟨k, rfl⟩ := Int.eq_ofNat_of_zero_le hi
    exact h k v hv
  · cases hv

/-- Writing into a cell of a row. -/
theorem Carries.set (h : s.Carries base offset row) {i : Int} (hi : (row.get? i).isSome)
    (hw : w.ty = row.ty) :
    (s.setSlot base (s.origin base + offset + i).toNat w).Carries base offset
      (row.set i.toNat w hw) := by
  obtain ⟨old, hold⟩ := Option.isSome_iff_exists.mp hi
  have hslot := h.slot? hold
  intro k v hv
  rw [origin_setSlot]
  have hi₀ : 0 ≤ i := by
    unfold Row.get? at hold
    split at hold
    · assumption
    · cases hold
  simp only [Row.set, List.getElem?_set] at hv
  -- the slots of a row are apart, so the others keep their values
  by_cases hk : i.toNat = k
  · rw [if_pos hk] at hv
    split at hv
    · cases hv
      have hik : (i : Int) = k := by omega
      rw [← hik]
      exact slot?_setSlot_self (by rw [hslot]; rfl)
    · cases hv
  · rw [if_neg hk] at hv
    rw [slot?_setSlot_of_ne (nonneg_of_slot? hslot) (fun _ => by omega)]
    exact h k v hv

/-- Writing beside a row. -/
theorem Carries.beside (h : s.Carries base offset row) {i : Int} (hi : 0 ≤ i)
    (hne : ∀ k : Nat, k < row.values.length → base' = base → i ≠ s.origin base + offset + k) :
    (s.setSlot base' i.toNat w).Carries base offset row := by
  intro k v hv
  have hk : k < row.values.length := (List.getElem?_eq_some_iff.mp hv).1
  rw [origin_setSlot, slot?_setSlot_of_ne hi (hne k hk)]
  exact h k v hv

/-- A row lies in every memory with the same slots. -/
theorem Carries.congr {s' : State} (h : s.Carries base offset row)
    (hs : ∀ k : Nat, k < row.values.length → s'.slot? base (s'.origin base + offset + k) =
      s.slot? base (s.origin base + offset + k)) : s'.Carries base offset row := by
  intro k v hv
  rw [hs k (List.getElem?_eq_some_iff.mp hv).1]
  exact h k v hv

end State

namespace Target

variable {σ : Type} (T : Target σ)

variable {T} {frame f : FrameLayout} {scope : Scope} {s s' : State} {st : Store σ} {v : Variable}
  {name : String} {t : Table Symbol} {ts : List (Table Symbol)} {rows : Table Row}
  {rs : List (Table Row)} {row : Row}

@[simp]
theorem world_assign (st : Store σ) (name : String) (row : Row) :
    (st.assign name row).world = st.world := by
  unfold Store.assign
  split <;> rfl

/-- The index of a cell is a natural number below the length of the row. -/
theorem exists_nat_of_get? {i : Int} (hi : (row.get? i).isSome) :
    ∃ k : Nat, i = k ∧ k < row.values.length := by
  unfold Row.get? at hi
  split at hi
  next hi₀ =>
    obtain ⟨old, hold⟩ := Option.isSome_iff_exists.mp hi
    exact ⟨i.toNat, by omega, (List.getElem?_eq_some_iff.mp hold).1⟩
  · cases hi

/-! ## Operands -/

/-- Two states that differ in memory only. -/
structure SameControl (s s' : State) : Prop where
  pc : s'.pc = s.pc
  bp : s'.bp = s.bp
  frames : s'.frames = s.frames
  registers : s'.registers = s.registers

theorem sameControl_setSlot (s : State) (base : Base) (i : Nat) (w : Value) :
    SameControl s (s.setSlot base i w) := by
  cases base <;> exact ⟨rfl, rfl, rfl, rfl⟩

theorem SameControl.indexValue (h : SameControl s s') {index : Option Reg} :
    s'.indexValue index = s.indexValue index := by
  unfold State.indexValue
  rw [h.registers]

section Carries

variable {base : Base} {offset : Int} {index : Option Reg} {i : Int} {x : Value}

theorem locate_of_carries (hc : s.Carries base offset row) (hindex : s.indexValue index = .ok i)
    {u : Value} (hu : row.get? i = some u) :
    s.locate ⟨base, offset, index⟩ = .ok ((s.origin base + offset + i).toNat, u) := by
  obtain ⟨k, -, hk⟩ := exists_nat_of_get? (Option.isSome_of_eq_some hu)
  have hpos : 0 < row.values.length := Nat.zero_lt_of_lt hk
  have hfirst : (s.slot? base (s.origin base + offset)).isSome := by
    have h := hc 0 row.values[0] (List.getElem?_eq_getElem hpos)
    rw [Nat.cast_zero, Int.add_zero] at h
    rw [h]
    rfl
  have hcell := hc.slot? hu
  simp only [State.locate, hindex, bind, Except.bind, hfirst, Bool.or_true, if_true, hcell]

/-- **Reading a variable** gives the value that the evaluation has, unless it is outside. -/
theorem fetch_of_carries (labels : Table Nat) (hc : s.Carries base offset row)
    (hstart : v.slot.start? frame = some (base, offset)) (hrow : st.find? name = some row)
    (hindex : s.indexValue index = .ok i) :
    (∃ u, Reference.fetch ⟨name, i⟩ st = .ok u st ∧ u.ty = row.ty ∧ ∀ op pc,
        s.read ((v.slot.operand index).settle labels frame op pc) = .ok u) ∨
      Reference.fetch ⟨name, i⟩ st = .error .outside st := by
  simp only [Reference.fetch, hrow, settle_slot hstart]
  cases hget : row.get? i with
  | none => exact .inr rfl
  | some u =>
    refine .inl ⟨u, rfl, row.ty_of_get? hget, fun _ _ => ?_⟩
    simp only [State.read, locate_of_carries hc hindex hget]
    rfl

/-- **Writing a variable** stores the value that the evaluation stores, unless it is outside. -/
theorem put_of_carries (labels : Table Nat) (hc : s.Carries base offset row)
    (hstart : v.slot.start? frame = some (base, offset)) (hrow : st.find? name = some row)
    (hindex : s.indexValue index = .ok i) (hx : x.ty = row.ty) :
    ((row.get? i).isSome ∧
      (∀ u, coerce row.ty u = .ok x →
        Reference.put ⟨name, i⟩ u st = .ok x (st.assign name (row.set i.toNat x hx)) ∧
        ∀ op pc, s.write ((v.slot.operand index).settle labels frame op pc) u =
          .ok (s.setSlot base (s.origin base + offset + i).toNat x)) ∧
      ∀ op pc, (s.setSlot base (s.origin base + offset + i).toNat x).read
        ((v.slot.operand index).settle labels frame op pc) = .ok x) ∨
    ∀ u, coerce row.ty u = .ok x → Reference.put ⟨name, i⟩ u st = .error .outside st := by
  -- the row decides whether the index is inside; the slot is there if it is
  cases hget : row.get? i with
  | none =>
    refine .inr fun u _ => ?_
    simp [Reference.put, hrow, hget]
  | some old =>
    have hsome : (row.get? i).isSome := Option.isSome_of_eq_some hget
    refine .inl ⟨rfl, fun u hu => ⟨?_, fun op pc => ?_⟩, fun op pc => ?_⟩
    · simp only [Reference.put, hrow, hget, Option.isSome_some, if_true]
      split
      next w hw =>
        cases hu.symm.trans hw
        rfl
      next e he => cases hu.symm.trans he
    · simp only [settle_slot hstart, State.write, locate_of_carries hc hindex hget,
        row.ty_of_get? hget, hu, bind, Except.bind, liftConversion]
    · have hsame := sameControl_setSlot s base (s.origin base + offset + i).toNat x
      have hindex' := hsame.indexValue.trans hindex
      have hlocate := locate_of_carries (hc.set hsome hx) hindex' (row.get?_set_self hsome _)
      simp only [settle_slot hstart, State.read, hlocate]
      rfl

end Carries

end Target

end Stepwise
