import Mathlib
import Stepwise.Proofs.ProgramCorrespondence

/-!
# Regions with their scratch cells in another order

A scratch cell is made when a conversion first needs it, so the order in which functions are
compiled shows in the offsets of the cells. It shows nowhere else: regions that were asked for the
same cells in different orders have one length, use the same slots for cells, and hold the same in
all other slots.

## Main definitions

* `GlobalLayout.Aligned`: regions that differ only in which cell lies where

## Main results

* `Aligned.place`, `Aligned.drawAll`: one more variable and more cells keep regions aligned
* `aligned_drawAll_of_perm`: the order of the cells does not matter
-/

namespace Stepwise.GlobalLayout

/-- The name of the scratch cell of a type in the symbol map. -/
def cellName (ty : Ty) : String := "cast:" ++ ty.name

/-- A slot is the scratch cell of some type. -/
def IsCell (g : GlobalLayout) (k : Nat) : Prop := ∃ ty, g.casts.lookup ty = some k

/-- Regions that differ only in which scratch cell lies where. -/
structure Aligned (g g' : GlobalLayout) : Prop where
  size : g'.values.size = g.values.size
  types : ∀ ty, (g'.casts.lookup ty).isSome = (g.casts.lookup ty).isSome
  slots : ∀ k, g'.IsCell k ↔ g.IsCell k
  values : ∀ k : Nat, ¬ g.IsCell k → g'.values[k]? = g.values[k]?
  entries : ∀ name, (∀ ty, name ≠ cellName ty) → g'.entries.get? name = g.entries.get? name

variable {g g' g'' : GlobalLayout}

theorem Aligned.refl (g : GlobalLayout) : g.Aligned g :=
  ⟨rfl, fun _ => rfl, fun _ => Iff.rfl, fun _ _ => rfl, fun _ _ => rfl⟩

theorem Aligned.trans (h : g.Aligned g') (h' : g'.Aligned g'') : g.Aligned g'' where
  size := h'.size.trans h.size
  types ty := (h'.types ty).trans (h.types ty)
  slots k := (h'.slots k).trans (h.slots k)
  values k hk := (h'.values k fun hc => hk ((h.slots k).mp hc)).trans (h.values k hk)
  entries name hn := (h'.entries name hn).trans (h.entries name hn)

/-! ## One more cell -/

/-- A new cell lies at the end; all others are where they were. -/
theorem lookup_castCell_of_none {ty : Ty} (h : g.casts.lookup ty = none) (t : Ty) :
    (g.castCell ty).2.casts.lookup t = if t = ty then some g.values.size else g.casts.lookup t := by
  rw [castCell_of_lookup_eq_none h, List.lookup_append]
  split
  next ht => simp [ht, h]
  next ht =>
    have hne : (t == ty) = false := beq_eq_false_iff_ne.mpr ht
    simp [List.lookup_cons, hne]

theorem isCell_castCell_of_none {ty : Ty} (h : g.casts.lookup ty = none) (k : Nat) :
    (g.castCell ty).2.IsCell k ↔ g.IsCell k ∨ k = g.values.size := by
  constructor
  · rintro ⟨t, ht⟩
    rw [lookup_castCell_of_none h] at ht
    split at ht
    · exact .inr (Option.some.inj ht).symm
    · exact .inl ⟨t, ht⟩
  · rintro (⟨t, ht⟩ | rfl)
    · exact ⟨t, (g.extends_castCell ty).casts ht⟩
    · refine ⟨ty, ?_⟩
      rw [lookup_castCell_of_none h, if_pos rfl]

theorem getElem?_castCell_of_none {ty : Ty} (h : g.casts.lookup ty = none) {k : Nat}
    (hk : k ≠ g.values.size) : (g.castCell ty).2.values[k]? = g.values[k]? := by
  rw [castCell_of_lookup_eq_none h, Array.getElem?_push, if_neg hk]

theorem get?_castCell_of_none {ty : Ty} (h : g.casts.lookup ty = none) {name : String}
    (hn : ∀ ty, name ≠ cellName ty) :
    (g.castCell ty).2.entries.get? name = g.entries.get? name := by
  rw [castCell_of_lookup_eq_none h]
  exact Table.get?_insert_of_ne _ (hn ty) _

theorem size_castCell_of_none {ty : Ty} (h : g.casts.lookup ty = none) :
    (g.castCell ty).2.values.size = g.values.size + 1 := by
  rw [castCell_of_lookup_eq_none h]
  exact Array.size_push _

/-- Both regions have the cell already, or both get it at the end. -/
theorem Aligned.castCell (h : g.Aligned g') (ty : Ty) :
    (g.castCell ty).2.Aligned (g'.castCell ty).2 := by
  have htypes := h.types ty
  cases hl : g.casts.lookup ty with
  | some k =>
    rw [hl] at htypes
    obtain ⟨k', hl'⟩ := Option.isSome_iff_exists.mp htypes
    rw [castCell_of_lookup_eq_some hl, castCell_of_lookup_eq_some hl']
    exact h
  | none =>
    rw [hl] at htypes
    have hl' : g'.casts.lookup ty = none := Option.not_isSome_iff_eq_none.mp (by simp [htypes])
    refine ⟨?_, fun t => ?_, fun k => ?_, fun k hk => ?_, fun name hn => ?_⟩
    · rw [size_castCell_of_none hl, size_castCell_of_none hl', h.size]
    · rw [lookup_castCell_of_none hl, lookup_castCell_of_none hl', h.size]
      split
      · rfl
      · exact h.types t
    · rw [isCell_castCell_of_none hl, isCell_castCell_of_none hl', h.slots, h.size]
    · rw [isCell_castCell_of_none hl, not_or] at hk
      rw [getElem?_castCell_of_none hl hk.2, getElem?_castCell_of_none hl' (h.size ▸ hk.2),
        h.values k hk.1]
    · rw [get?_castCell_of_none hl hn, get?_castCell_of_none hl' hn, h.entries name hn]

theorem Aligned.drawAll (h : g.Aligned g') (tys : List Ty) :
    (g.drawAll tys).Aligned (g'.drawAll tys) := by
  induction tys generalizing g g' with
  | nil => exact h
  | cons ty rest ih => exact ih (h.castCell ty)

/-- Two cells may be asked for in either order. -/
theorem aligned_castCell_comm (g : GlobalLayout) (ty ty' : Ty) :
    ((g.castCell ty).2.castCell ty').2.Aligned ((g.castCell ty').2.castCell ty).2 := by
  -- a cell that is there already is left alone, before and after the other one
  have hthere (t t' : Ty) {k : Nat} (hk : g.casts.lookup t = some k) :
      (g.castCell t).2.castCell t' = g.castCell t' ∧
        ((g.castCell t').2.castCell t).2 = (g.castCell t').2 := by
    refine ⟨by rw [castCell_of_lookup_eq_some hk], ?_⟩
    rw [castCell_of_lookup_eq_some ((g.extends_castCell t').casts hk)]
  cases hl : g.casts.lookup ty with
  | some k =>
    obtain ⟨h₁, h₂⟩ := hthere ty ty' hl
    rw [h₁, h₂]
    exact .refl _
  | none =>
    cases hl' : g.casts.lookup ty' with
    | some k =>
      obtain ⟨h₁, h₂⟩ := hthere ty' ty hl'
      rw [h₁, h₂]
      exact .refl _
    | none =>
      by_cases heq : ty' = ty
      · rw [heq]
        exact .refl _
      · -- two new cells take the same two slots
        have hn : (g.castCell ty).2.casts.lookup ty' = none := by
          rw [lookup_castCell_of_none hl, if_neg heq, hl']
        have hn' : (g.castCell ty').2.casts.lookup ty = none := by
          rw [lookup_castCell_of_none hl', if_neg (Ne.symm heq), hl]
        have hsize := size_castCell_of_none hl
        have hsize' := size_castCell_of_none hl'
        refine ⟨?_, fun t => ?_, fun k => ?_, fun k hk => ?_, fun name hname => ?_⟩
        · rw [size_castCell_of_none hn, size_castCell_of_none hn', hsize, hsize']
        · rw [lookup_castCell_of_none hn, lookup_castCell_of_none hn', lookup_castCell_of_none hl,
            lookup_castCell_of_none hl']
          split <;> split <;> rfl
        · rw [isCell_castCell_of_none hn, isCell_castCell_of_none hn', isCell_castCell_of_none hl,
            isCell_castCell_of_none hl', hsize, hsize']
        · rw [isCell_castCell_of_none hn, isCell_castCell_of_none hl, hsize, not_or, not_or] at hk
          obtain ⟨⟨-, hk₀⟩, hk₁⟩ := hk
          rw [getElem?_castCell_of_none hn (hsize ▸ hk₁), getElem?_castCell_of_none hl hk₀,
            getElem?_castCell_of_none hn' (hsize' ▸ hk₁), getElem?_castCell_of_none hl' hk₀]
        · rw [get?_castCell_of_none hn hname, get?_castCell_of_none hn' hname,
            get?_castCell_of_none hl hname, get?_castCell_of_none hl' hname]

/-- **The order in which cells are asked for does not matter.** -/
theorem aligned_drawAll_of_perm {tys tys' : List Ty} (h : tys.Perm tys') (g : GlobalLayout) :
    (g.drawAll tys).Aligned (g.drawAll tys') := by
  induction h generalizing g with
  | nil => exact .refl g
  | cons ty _ ih => exact ih _
  | swap ty ty' rest => exact (aligned_castCell_comm g ty' ty).drawAll rest
  | trans _ _ ih ih' => exact (ih g).trans (ih' g)

/-! ## One more variable -/

theorem extends_place (g : GlobalLayout) (name : String) (ty : Ty) (length : Option Nat)
    (values : List Value) : g.Extends (g.place name ty length values) := by
  refine ⟨fun {k w} hw => ?_, id⟩
  have hk := (Array.getElem?_eq_some_iff.mp hw).1
  rw [place, Array.getElem?_append_left hk, hw]

/-- A variable lies at the same offset in both regions. -/
theorem Aligned.place (h : g.Aligned g') (name : String) (ty : Ty) (length : Option Nat)
    (values : List Value) :
    (g.place name ty length values).Aligned (g'.place name ty length values) := by
  refine ⟨?_, h.types, h.slots, fun k hk => ?_, fun n hn => ?_⟩
  · simp only [GlobalLayout.place, Array.size_append, h.size]
  · simp only [GlobalLayout.place, Array.getElem?_append, h.size, h.values k hk]
  · simp only [GlobalLayout.place, Table.get?_insert, h.size, h.entries n hn]

end Stepwise.GlobalLayout
