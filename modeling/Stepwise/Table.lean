/-!
# Tables

Named entries in the order in which their names first came. A table never holds a name twice:
entering a name again replaces its entry and keeps its position.

## Main definitions

* `Table`: a table
* `Table.get?`, `Table.insert`, `Table.ofList`: look-up and entry

## Main results

* `get?_insert_self`, `get?_insert_of_ne`: what a look-up finds after an entry
* `entries_insert_of_get?_eq_none`: a new name comes last
-/

namespace Stepwise

/-- Enters a name in a list of entries. -/
def putEntry {α : Type} (key : String) (value : α) : List (String × α) → List (String × α)
  | [] => [(key, value)]
  | e :: rest => if e.1 = key then (key, value) :: rest else e :: putEntry key value rest

theorem mem_keys_putEntry {α : Type} {key k : String} {value : α} {es : List (String × α)} :
    k ∈ (putEntry key value es).map Prod.fst ↔ k = key ∨ k ∈ es.map Prod.fst := by
  induction es with
  | nil => simp [putEntry]
  | cons e rest ih =>
    by_cases h : e.1 = key
    · simp [putEntry, h]
    · simp only [putEntry, if_neg h, List.map_cons, List.mem_cons, ih]
      constructor
      · rintro (h | h | h) <;> simp [h]
      · rintro (h | h | h) <;> simp [h]

theorem nodup_putEntry {α : Type} {key : String} {value : α} {es : List (String × α)}
    (h : (es.map Prod.fst).Nodup) : ((putEntry key value es).map Prod.fst).Nodup := by
  induction es with
  | nil => simp [putEntry]
  | cons e rest ih =>
    rw [List.map_cons, List.nodup_cons] at h
    by_cases he : e.1 = key
    · simp only [putEntry, if_pos he, List.map_cons, List.nodup_cons]
      exact ⟨he ▸ h.1, h.2⟩
    · simp only [putEntry, if_neg he, List.map_cons, List.nodup_cons, mem_keys_putEntry]
      exact ⟨fun hm => hm.elim he h.1, ih h.2⟩

/-- Named entries in the order in which their names first came. -/
structure Table (α : Type) where
  entries : List (String × α)
  nodup : (entries.map Prod.fst).Nodup

namespace Table

variable {α : Type}

/-- The table without entries. -/
def empty : Table α := ⟨[], List.nodup_nil⟩

instance : Inhabited (Table α) := ⟨empty⟩

instance [DecidableEq α] : DecidableEq (Table α) := fun s t =>
  decidable_of_iff (s.entries = t.entries) ⟨fun h => by cases s; cases t; cases h; rfl,
    fun h => by rw [h]⟩

instance [Repr α] : Repr (Table α) := ⟨fun t n => reprPrec t.entries n⟩

/-- The entry with a given name. -/
def get? (t : Table α) (key : String) : Option α :=
  (t.entries.find? (·.1 == key)).map (·.2)

/-- Whether a name has an entry. -/
def contains (t : Table α) (key : String) : Bool := (t.get? key).isSome

/-- The table with an entry added or replaced. -/
def insert (t : Table α) (key : String) (value : α) : Table α :=
  ⟨putEntry key value t.entries, nodup_putEntry t.nodup⟩

/-- The table of a list of entries, of which a later one replaces an earlier one of its name. -/
def ofList (es : List (String × α)) : Table α :=
  es.foldl (fun t e => t.insert e.1 e.2) empty

/-- The number of entries. -/
def size (t : Table α) : Nat := t.entries.length

/-- The names, in order. -/
def keys (t : Table α) : List String := t.entries.map (·.1)

theorem find?_putEntry_self (key : String) (value : α) (es : List (String × α)) :
    (putEntry key value es).find? (·.1 == key) = some (key, value) := by
  induction es with
  | nil => simp [putEntry]
  | cons e rest ih =>
    by_cases h : e.1 = key
    · simp [putEntry, h]
    · simp [putEntry, h, ih]

theorem find?_putEntry_of_ne {key k : String} (hk : k ≠ key) (value : α)
    (es : List (String × α)) :
    (putEntry key value es).find? (·.1 == k) = es.find? (·.1 == k) := by
  induction es with
  | nil => simp [putEntry, Ne.symm hk]
  | cons e rest ih =>
    by_cases h : e.1 = key
    · simp [putEntry, h, Ne.symm hk]
    · simp [putEntry, h, List.find?_cons, ih]

@[simp]
theorem get?_insert_self (t : Table α) (key : String) (value : α) :
    (t.insert key value).get? key = some value := by
  simp [get?, insert, find?_putEntry_self]

theorem get?_insert_of_ne (t : Table α) {key k : String} (hk : k ≠ key) (value : α) :
    (t.insert key value).get? k = t.get? k := by
  simp [get?, insert, find?_putEntry_of_ne hk]

@[simp]
theorem get?_empty (key : String) : (empty : Table α).get? key = none := rfl

theorem putEntry_of_find?_eq_none {key : String} {value : α} {es : List (String × α)}
    (h : es.find? (·.1 == key) = none) : putEntry key value es = es ++ [(key, value)] := by
  induction es with
  | nil => rfl
  | cons e rest ih =>
    by_cases he : e.1 = key
    · simp [he] at h
    · simp [putEntry, he, ih (by simpa [he] using h)]

/-- A new name comes last. -/
theorem entries_insert_of_get?_eq_none {t : Table α} {key : String} (h : t.get? key = none)
    (value : α) : (t.insert key value).entries = t.entries ++ [(key, value)] :=
  putEntry_of_find?_eq_none (by simpa [get?] using h)

end Table

end Stepwise
