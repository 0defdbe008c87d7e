/-!
# Ranges of code points

A set of characters as the closed ranges of its code points, in ascending order and apart from each
other. A search may therefore stop at the first range that lies beyond the character.

## Main definitions

* `Ranges`: a set of characters
* `Ranges.contains`: membership

## Main results

* `Ranges.contains_iff`: a character is in the set if and only if it is in one of the ranges
-/

namespace Stepwise.Text

/-- Whether each range has a first and a last member in this order, and ends before the next one
starts. -/
def ascending : List (Nat × Nat) → Bool
  | [] => true
  | [r] => r.1 ≤ r.2
  | r :: s :: rest => r.1 ≤ r.2 && r.2 < s.1 && ascending (s :: rest)

/-- A set of characters, given by ranges of code points. -/
structure Ranges where
  list : List (Nat × Nat)
  sorted : ascending list = true := by decide +kernel

/-- Whether a code point lies in one of the ranges, as far as ranges that start after it need not be
looked at. -/
def liesIn (n : Nat) : List (Nat × Nat) → Bool
  | [] => false
  | r :: rest => r.1 ≤ n && (n ≤ r.2 || liesIn n rest)

/-- Whether a character is in the set. -/
def Ranges.contains (rs : Ranges) (c : Char) : Bool := liesIn c.toNat rs.list

theorem ascending_tail {r : Nat × Nat} {rest : List (Nat × Nat)}
    (h : ascending (r :: rest) = true) : ascending rest = true := by
  cases rest with
  | nil => rfl
  | cons s rest =>
    simp only [ascending, Bool.and_eq_true] at h
    exact h.2

/-- All later ranges start after the first one does. -/
theorem lt_of_mem_of_ascending {r : Nat × Nat} {rest : List (Nat × Nat)}
    (h : ascending (r :: rest) = true) {s : Nat × Nat} (hs : s ∈ rest) : r.1 < s.1 := by
  induction rest generalizing r with
  | nil => cases hs
  | cons t rest ih =>
    have ht := ascending_tail h
    simp only [ascending, Bool.and_eq_true, decide_eq_true_eq] at h
    have hrt : r.1 < t.1 := Nat.lt_of_le_of_lt h.1.1 h.1.2
    rcases List.mem_cons.mp hs with rfl | hs
    · exact hrt
    · exact Nat.lt_trans hrt (ih ht hs)

theorem liesIn_iff {n : Nat} {rs : List (Nat × Nat)} (h : ascending rs = true) :
    liesIn n rs = true ↔ ∃ r ∈ rs, r.1 ≤ n ∧ n ≤ r.2 := by
  induction rs with
  | nil => simp [liesIn]
  | cons r rest ih =>
    simp only [liesIn, Bool.and_eq_true, Bool.or_eq_true, decide_eq_true_eq, List.mem_cons,
      ih (ascending_tail h)]
    constructor
    · rintro ⟨hr, hn | ⟨s, hs, hsn⟩⟩
      · exact ⟨r, .inl rfl, hr, hn⟩
      · exact ⟨s, .inr hs, hsn⟩
    · rintro ⟨s, rfl | hs, hsn⟩
      · exact ⟨hsn.1, .inl hsn.2⟩
      · have hlt := lt_of_mem_of_ascending h hs
        exact ⟨Nat.le_trans (Nat.le_of_lt hlt) hsn.1, .inr ⟨s, hs, hsn⟩⟩

/-- A character is in the set if and only if it is in one of the ranges. -/
theorem Ranges.contains_iff (rs : Ranges) (c : Char) :
    rs.contains c = true ↔ ∃ r ∈ rs.list, r.1 ≤ c.toNat ∧ c.toNat ≤ r.2 :=
  liesIn_iff rs.sorted

end Stepwise.Text
