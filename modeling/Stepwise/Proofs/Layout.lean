import Mathlib
import Stepwise.Proofs.StmtCases

/-!
# Where variables lie

No two variables share a slot. In a frame, a new variable gets a key that is free and slots beyond
all others; in the global region, a declared variable or a scratch cell comes after everything that
is there. Layouts only grow, so what holds of a variable when it is declared holds in the end.

## Main definitions

* `FrameLayout.Sound`, `GlobalLayout.Sound`: the variables have slots of their own
* `FrameLayout.Extends`, `GlobalLayout.Extends`: a layout that has grown

## Main results

* `freshKey_free`: the key of a new variable is free
* `FrameLayout.Sound.addLocal`, `GlobalLayout.Sound.declareOne`, `GlobalLayout.Sound.castCell`: a
  new variable keeps all others apart
-/

namespace Stepwise

/-! ## Tables and scopes -/

namespace Table

variable {α : Type}

theorem get?_eq_none_iff {t : Table α} {key : String} :
    t.get? key = none ↔ key ∉ t.entries.map Prod.fst := by
  simp only [get?, Option.map_eq_none_iff, List.find?_eq_none, beq_iff_eq, List.mem_map, not_exists,
    not_and]

/-- A look-up finds exactly the entries. -/
theorem get?_eq_some_iff {t : Table α} {key : String} {a : α} :
    t.get? key = some a ↔ (key, a) ∈ t.entries := by
  obtain ⟨es, hnodup⟩ := t
  simp only [get?]
  induction es with
  | nil => simp
  | cons e rest ih =>
    rw [List.map_cons, List.nodup_cons] at hnodup
    by_cases h : e.1 = key
    · have hnot : (key, a) ∉ rest := fun hm => hnodup.1 (h ▸ List.mem_map_of_mem hm)
      obtain ⟨k, b⟩ := e
      simp_all [eq_comm]
    · have hne : (key, a) ≠ e := fun he => h (by rw [← he])
      rw [List.find?_cons_of_neg (by simpa using h), ih hnodup.2, List.mem_cons]
      simp [hne]

theorem get?_insert (t : Table α) (key : String) (value : α) (k : String) :
    (t.insert key value).get? k = if k = key then some value else t.get? k := by
  split
  next h => rw [h, get?_insert_self]
  next h => exact get?_insert_of_ne t h value

end Table

namespace Scope

theorem lookup?_child (s : Scope) (name : String) : s.child.lookup? name = s.lookup? name := rfl

theorem lookup?_eq (s : Scope) (name : String) :
    s.lookup? name = (s.inner.get? name).or (s.outer.findSome? (·.get? name)) := by
  simp only [lookup?, List.findSome?_cons]
  cases s.inner.get? name <;> rfl

variable {name : String} {s : Scope} {symbol : Symbol}

theorem declare_eq_ok {s' : Scope} :
    s.declare name symbol = .ok s' ↔
      s.inner.get? name = none ∧ s' = ⟨s.inner.insert name symbol, s.outer⟩ := by
  unfold declare Table.contains
  cases h : s.inner.get? name <;> simp [eq_comm]

/-- A declared name has its meaning, and every other name keeps its own. -/
theorem lookup?_of_declare {s' : Scope} (h : s.declare name symbol = .ok s') (k : String) :
    s'.lookup? k = if k = name then some symbol else s.lookup? k := by
  obtain ⟨-, rfl⟩ := declare_eq_ok.mp h
  rw [lookup?_eq, lookup?_eq]
  split
  next hk => simp [hk]
  next hk => rw [Table.get?_insert_of_ne _ hk]

theorem resolve_eq_ok : s.resolve name = .ok symbol ↔ s.lookup? name = some symbol := by
  unfold resolve
  cases s.lookup? name <;> simp

end Scope

namespace Lowering

variable {scope : Scope}

/-- A name used as a value is a variable that is not an array. -/
theorem scalarOperand_eq_ok {name : String} {loc : Location} {o : Operand} {ty : Ty}
    (h : scalarOperand scope name loc = .ok (o, ty)) :
    ∃ v, scope.lookup? name = some (.variable v) ∧ v.isArray = false ∧ o = v.slot.operand none ∧
      ty = v.ty := by
  simp only [scalarOperand, bind_eq_ok, locate_eq_ok, Scope.resolve_eq_ok] at h
  obtain ⟨v | f, hs, h⟩ := h
  · simp only at h
    split at h
    · simp [at_ne_ok] at h
    next hv =>
      cases h
      exact ⟨v, hs, by simpa using hv, rfl, rfl⟩
  · simp [at_ne_ok] at h

/-- An indexed expression is the name of an array. -/
theorem arraySlot_eq_ok {base : Expr} {slot : Slot} {ty : Ty}
    (h : arraySlot scope base = .ok (slot, ty)) :
    ∃ name loc v, base = .ident name loc ∧ scope.lookup? name = some (.variable v) ∧
      v.isArray = true ∧ slot = v.slot ∧ ty = v.ty := by
  unfold arraySlot at h
  split at h
  next name loc =>
    simp only [bind_eq_ok, locate_eq_ok, Scope.resolve_eq_ok] at h
    obtain ⟨v | f, hs, h⟩ := h
    · simp only at h
      split at h
      next hv =>
        cases h
        exact ⟨name, loc, v, rfl, hs, hv, rfl, rfl⟩
      · simp [at_ne_ok] at h
    · simp [at_ne_ok] at h
  · simp [at_ne_ok] at h

/-- A callee is the name of a function. -/
theorem calleeSignature_eq_ok {callee : Expr} {name : String} {f : Signature}
    (h : calleeSignature scope callee = .ok (name, f)) :
    ∃ loc, callee = .ident name loc ∧ scope.lookup? name = some (.function f) := by
  unfold calleeSignature at h
  split at h
  next n loc =>
    simp only [bind_eq_ok, locate_eq_ok, Scope.resolve_eq_ok] at h
    obtain ⟨v | g, hs, h⟩ := h
    · simp [at_ne_ok] at h
    · cases h
      exact ⟨loc, rfl, hs⟩
  · simp [at_ne_ok] at h

end Lowering

/-! ## Frames -/

/-- The number of slots of a variable. -/
def FrameEntry.span (e : FrameEntry) : Nat := e.length.getD 1

/-- A slot belongs to a variable. -/
def FrameEntry.Covers (e : FrameEntry) (k : Int) : Prop := e.offset ≤ k ∧ k < e.offset + e.span

/-- The number of variables of a frame that lie below the link slot. -/
def Table.belowLink (frame : Table FrameEntry) : Nat :=
  frame.entries.countP fun e => e.2.offset < 0

namespace FrameLayout

theorem numberedKey_injective (name : String) : Function.Injective (numberedKey name) := by
  intro m n h
  have hl := congrArg String.toList h
  simp only [numberedKey, String.toList_append, List.append_assoc,
    List.append_cancel_left_eq] at hl
  exact Nat.repr_injective (String.toList_injective hl)

/-- The key of a new variable is free: of one more keys than there are entries, one is not an
entry. -/
theorem freshKey_free (f : FrameLayout) (name : String) :
    f.entries.get? (f.freshKey name) = none := by
  unfold freshKey
  split
  next hname =>
    have hnodup : ((List.range (f.entries.size + 1)).map fun n =>
        numberedKey name (n + 1)).Nodup :=
      List.nodup_range.map fun m n h => Nat.succ_injective (numberedKey_injective name h)
    cases hfind : ((List.range (f.entries.size + 1)).map fun n => numberedKey name (n + 1)).find?
        fun key => !f.entries.contains key with
    | none =>
      -- the keys would all be names of entries, of which there are too few
      have hall : ∀ key ∈ (List.range (f.entries.size + 1)).map fun n => numberedKey name (n + 1),
          key ∈ f.entries.entries.map Prod.fst := by
        intro key hkey
        have hc := List.find?_eq_none.mp hfind key hkey
        by_contra hnot
        exact hc (by simp [Table.contains, Table.get?_eq_none_iff.mpr hnot])
      have hle := (hnodup.subperm hall).length_le
      simp [Table.size] at hle
    | some key =>
      have hc := List.find?_some hfind
      simpa [Table.contains] using hc
  next hname => simpa [Table.contains] using hname

/-- The variables of a frame have slots of their own: parameters below the link slot, locals above
it and below the next slot. -/
structure Sound (f : FrameLayout) : Prop where
  placed : ∀ {key e}, f.entries.get? key = some e →
    (e.length = none ∧ -(f.params : Int) ≤ e.offset ∧ e.offset < 0) ∨
      (0 < e.offset ∧ e.offset + e.span ≤ f.next)
  separate : ∀ {key key' e e' k}, f.entries.get? key = some e → f.entries.get? key' = some e' →
    e.Covers k → e'.Covers k → key = key'
  one_le_next : 1 ≤ f.next

/-- A frame that has grown: every variable is where it was. -/
structure Extends (f f' : FrameLayout) : Prop where
  entries : ∀ {key e}, f.entries.get? key = some e → f'.entries.get? key = some e
  params : f.params ≤ f'.params
  next : f.next ≤ f'.next

/-- A slot belongs to a variable of this type. -/
def Owns (f : FrameLayout) (k : Nat) (ty : Ty) : Prop :=
  ∃ key e, f.entries.get? key = some e ∧ e.Covers k ∧ e.ty = ty

variable {f : FrameLayout}

theorem Owns.extend {f' : FrameLayout} {k : Nat} {ty : Ty} (h : f.Owns k ty) (hx : f.Extends f') :
    f'.Owns k ty := by
  obtain ⟨key, e, he, hc⟩ := h
  exact ⟨key, e, hx.entries he, hc⟩

theorem Extends.refl (f : FrameLayout) : f.Extends f := ⟨id, le_rfl, le_rfl⟩

theorem Extends.trans {f' f'' : FrameLayout} (h : f.Extends f') (h' : f'.Extends f'') :
    f.Extends f'' :=
  ⟨fun he => h'.entries (h.entries he), h.params.trans h'.params, h.next.trans h'.next⟩

theorem sound_empty : empty.Sound where
  placed := by simp [empty]
  separate := by simp [empty]
  one_le_next := le_rfl

/-- A new entry keeps the variables apart if its slots are not taken. -/
theorem separate_insert {key : String} {e : FrameEntry} (hs : f.Sound)
    (hnew : ∀ {key' e' k}, f.entries.get? key' = some e' → e'.Covers k → ¬ e.Covers k)
    {k₁ k₂ : String} {e₁ e₂ : FrameEntry} {k : Int}
    (h₁ : (f.entries.insert key e).get? k₁ = some e₁)
    (h₂ : (f.entries.insert key e).get? k₂ = some e₂) (c₁ : e₁.Covers k) (c₂ : e₂.Covers k) :
    k₁ = k₂ := by
  rw [Table.get?_insert] at h₁ h₂
  split at h₁ <;> split at h₂
  next hk₁ hk₂ => rw [hk₁, hk₂]
  next hk₁ hk₂ =>
    cases h₁
    exact absurd c₁ (hnew h₂ c₂)
  next hk₁ hk₂ =>
    cases h₂
    exact absurd c₂ (hnew h₁ c₁)
  next hk₁ hk₂ => exact hs.separate h₁ h₂ c₁ c₂

theorem get?_addLocal (f : FrameLayout) (name : String) (ty : Ty) (length : Option Nat) :
    (f.addLocal name ty length).2.entries.get? (f.freshKey name) = some ⟨f.next, ty, length⟩ := by
  simp [addLocal]

theorem next_addLocal (f : FrameLayout) (name : String) (ty : Ty) (length : Option Nat) :
    (f.addLocal name ty length).2.next = f.next + length.getD 1 := rfl

theorem get?_insert_freshKey {name key : String} {e e' : FrameEntry}
    (h : f.entries.get? key = some e) :
    (f.entries.insert (f.freshKey name) e').get? key = some e := by
  have hne : key ≠ f.freshKey name := by
    rintro rfl
    rw [f.freshKey_free name] at h
    cases h
  rw [Table.get?_insert_of_ne _ hne, h]

theorem extends_addLocal (f : FrameLayout) (name : String) (ty : Ty) (length : Option Nat) :
    f.Extends (f.addLocal name ty length).2 where
  entries h := get?_insert_freshKey h
  params := le_rfl
  next := Nat.le_add_right _ _

theorem extends_addParam (f : FrameLayout) (name : String) (ty : Ty) :
    f.Extends (f.addParam name ty).2 where
  entries h := get?_insert_freshKey h
  params := Nat.le_succ _
  next := le_rfl

/-- A new local variable lies above the link slot. -/
theorem belowLink_addLocal (f : FrameLayout) (name : String) (ty : Ty) (length : Option Nat) :
    (f.addLocal name ty length).2.entries.belowLink = f.entries.belowLink := by
  simp only [addLocal, Table.belowLink, Table.entries_insert_of_get?_eq_none (f.freshKey_free name),
    List.countP_append]
  simp

/-- A new parameter lies below it. -/
theorem belowLink_addParam (f : FrameLayout) (name : String) (ty : Ty) :
    (f.addParam name ty).2.entries.belowLink = f.entries.belowLink + 1 := by
  have hneg : -1 < (f.params : Int) := by omega
  simp only [addParam, Table.belowLink, Table.entries_insert_of_get?_eq_none (f.freshKey_free name),
    List.countP_append]
  simp [hneg]

/-- **A new local variable has slots of its own.** -/
theorem Sound.addLocal (hs : f.Sound) (name : String) (ty : Ty) (length : Option Nat) :
    (f.addLocal name ty length).2.Sound where
  placed {key e} h := by
    have hone := hs.one_le_next
    simp only [FrameLayout.addLocal, Table.get?_insert] at h ⊢
    split at h
    · cases h
      right
      simp only [FrameEntry.span]
      omega
    · rcases hs.placed h with hp | hp
      · exact .inl hp
      · right
        omega
  separate h₁ h₂ c₁ c₂ := by
    refine separate_insert hs ?_ h₁ h₂ c₁ c₂
    intro key' e' k h' hc' hc
    have hone := hs.one_le_next
    simp only [FrameEntry.Covers, FrameEntry.span] at hc hc'
    rcases hs.placed h' with ⟨hl, hp⟩ | hp
    · rw [hl] at hc'
      simp only [Option.getD_none] at hc'
      omega
    · simp only [FrameEntry.span] at hp
      omega
  one_le_next := by
    have hone := hs.one_le_next
    rw [next_addLocal]
    omega

/-- **A new parameter has a slot of its own.** -/
theorem Sound.addParam (hs : f.Sound) (name : String) (ty : Ty) : (f.addParam name ty).2.Sound where
  placed {key e} h := by
    simp only [FrameLayout.addParam, Table.get?_insert] at h ⊢
    split at h
    · cases h
      left
      simp only [true_and]
      omega
    · rcases hs.placed h with ⟨hl, hp⟩ | hp
      · exact .inl ⟨hl, by omega⟩
      · exact .inr hp
  separate h₁ h₂ c₁ c₂ := by
    refine separate_insert hs ?_ h₁ h₂ c₁ c₂
    intro key' e' k h' hc' hc
    simp only [FrameEntry.Covers, FrameEntry.span, Option.getD_none] at hc hc'
    rcases hs.placed h' with ⟨hl, hp⟩ | hp
    · rw [hl] at hc'
      simp only [Option.getD_none] at hc'
      omega
    · simp only [FrameEntry.span] at hp
      omega
  one_le_next := hs.one_le_next

end FrameLayout

/-! ## The global region -/

/-- The number of slots of a variable. -/
def Variable.span (v : Variable) : Nat := v.length.getD 1

@[inherit_doc Variable.span]
def DataEntry.span (e : DataEntry) : Nat := e.length.getD 1

/-- The number of slots that a declarator of a declaration asks for. -/
def Declaration.span (decl : Declaration) (dr : Declarator) : Nat :=
  if decl.isArray then dr.length.getD 1 else 1

/-- An array has a positive length and no initializer. -/
theorem arrayLength_eq_ok {dr : Declarator} {n : Nat} :
    dr.arrayLength = .ok n ↔ dr.initializer = none ∧ dr.length = some n ∧ 0 < n := by
  unfold Declarator.arrayLength
  split
  next hinit => simp [at_ne_ok, hinit]
  next m hinit hlength =>
    rw [hinit, hlength, Except.ok.injEq, Option.some.injEq]
    constructor
    · rintro rfl
      exact ⟨rfl, rfl, Nat.succ_pos m⟩
    · rintro ⟨-, rfl, -⟩
      rfl
  next hinit hlength =>
    simp only [at_ne_ok, hinit, true_and, false_iff, not_and]
    intro hn hpos
    obtain ⟨m, rfl⟩ := Nat.exists_eq_succ_of_ne_zero hpos.ne'
    exact hlength m hn

theorem arrayLength_pos {dr : Declarator} {n : Nat} (h : dr.arrayLength = .ok n) : 0 < n :=
  (arrayLength_eq_ok.mp h).2.2

/-- The number of slots of an array is its length. -/
theorem Declaration.span_of_arrayLength {decl : Declaration} {dr : Declarator} {n : Nat}
    (harray : decl.isArray = true) (h : dr.arrayLength = .ok n) : decl.span dr = n := by
  rw [Declaration.span, if_pos harray, (arrayLength_eq_ok.mp h).2.1, Option.getD_some]

theorem convertConstant_eq_ok {ty : Ty} {v w : Value} {loc : Location} :
    convertConstant ty v loc = .ok w ↔ accepts ty v = true ∧ coerce ty v = .ok w := by
  unfold convertConstant
  split
  next h =>
    cases hc : coerce ty v <;> simp [h, Mistake.at]
  next h => simp [h, Mistake.at]

/-- The first value of a variable that is not an array: the converted value of its initializer, or
the default value of its type. -/
def Declarator.FirstValue (scope : Scope) (ty : Ty) (d : Declarator) (w : Value) : Prop :=
  match d.initializer with
  | some init => ∃ c, constant scope init = .ok c ∧ accepts ty c = true ∧ coerce ty c = .ok w
  | none => w = .defaultOf ty

theorem Declarator.FirstValue.ty {scope : Scope} {ty : Ty} {d : Declarator} {w : Value}
    (h : d.FirstValue scope ty w) (hty : ty ≠ .void) : w.ty = ty := by
  unfold FirstValue at h
  split at h
  · obtain ⟨c, -, -, hw⟩ := h
    exact ty_of_coerce hw
  · rw [h, Value.ty_defaultOf hty]

namespace GlobalLayout

/-- The slots from an offset on hold values of a type. -/
def Block (g : GlobalLayout) (offset span : Nat) (ty : Ty) : Prop :=
  ∀ k < span, ∃ w, g.values[offset + k]? = some w ∧ w.ty = ty

/-- The declared variables and the scratch cells have slots of their own, with values of their
types. -/
structure Sound (g : GlobalLayout) (names : Table Symbol) : Prop where
  declared : ∀ {name v}, names.get? name = some (.variable v) →
    ∃ o, v.slot = .global o ∧ 0 < v.span ∧ g.Block o v.span v.ty
  separate : ∀ {name name' v v' o o' k}, names.get? name = some (.variable v) →
    names.get? name' = some (.variable v') → v.slot = .global o → v'.slot = .global o' →
    o ≤ k → k < o + v.span → o' ≤ k → k < o' + v'.span → name = name'
  cell : ∀ {ty o}, (ty, o) ∈ g.casts → g.Block o 1 ty
  cell_apart : ∀ {ty o name v o'}, (ty, o) ∈ g.casts → names.get? name = some (.variable v) →
    v.slot = .global o' → ¬ (o' ≤ o ∧ o < o' + v.span)
  cell_injective : ∀ {ty ty' o}, (ty, o) ∈ g.casts → (ty', o) ∈ g.casts → ty = ty'
  entry : ∀ {name e}, g.entries.get? name = some e → g.Block e.offset e.span e.ty

/-- A region that has grown: every slot and every scratch cell is where it was. -/
structure Extends (g g' : GlobalLayout) : Prop where
  values : ∀ {k : Nat} {w : Value}, g.values[k]? = some w → g'.values[k]? = some w
  casts : ∀ {ty o}, g.casts.lookup ty = some o → g'.casts.lookup ty = some o

theorem Extends.refl (g : GlobalLayout) : g.Extends g := ⟨id, id⟩

variable {g g' : GlobalLayout} {o : Nat} {ty : Ty} {d : Declarator} {decl : Declaration}
  {scope : Scope}

theorem Extends.trans {g'' : GlobalLayout} (h : g.Extends g') (h' : g'.Extends g'') :
    g.Extends g'' :=
  ⟨fun hw => h'.values (h.values hw), fun ho => h'.casts (h.casts ho)⟩

theorem Block.extend {n : Nat} (h : g.Block o n ty) (hx : g.Extends g') : g'.Block o n ty := by
  intro k hk
  obtain ⟨w, hw, hty⟩ := h k hk
  exact ⟨w, hx.values hw, hty⟩

/-- The slots of a block are slots of the region. -/
theorem Block.lt {n k : Nat} (h : g.Block o n ty) (hk : o ≤ k) (hk' : k < o + n) :
    k < g.values.size := by
  obtain ⟨w, hw, -⟩ := h (k - o) (by omega)
  rw [Nat.add_sub_cancel' hk] at hw
  exact (Array.getElem?_eq_some_iff.mp hw).1

theorem sound_empty {names : Table Symbol}
    (h : ∀ name v, names.get? name ≠ some (.variable v)) : empty.Sound names where
  declared hv := absurd hv (h _ _)
  separate hv := absurd hv (h _ _)
  cell hm := by cases hm
  cell_apart hm := by cases hm
  cell_injective hm := by cases hm
  entry he := by simp [empty] at he

/-- A new scratch cell comes last. -/
theorem castCell_of_lookup_eq_none (h : g.casts.lookup ty = none) :
    g.castCell ty = (g.values.size, {
      values := g.values.push (.defaultOf ty)
      entries := g.entries.insert ("cast:" ++ ty.name) ⟨g.values.size, ty, none⟩
      casts := g.casts ++ [(ty, g.values.size)] }) := by
  simp only [castCell, h]

theorem castCell_of_lookup_eq_some (h : g.casts.lookup ty = some o) : g.castCell ty = (o, g) := by
  simp only [castCell, h]

theorem extends_castCell (g : GlobalLayout) (ty : Ty) : g.Extends (g.castCell ty).2 := by
  cases h : g.casts.lookup ty with
  | some o =>
    rw [castCell_of_lookup_eq_some h]
    exact .refl g
  | none =>
    rw [castCell_of_lookup_eq_none h]
    refine ⟨fun {k w} hw => ?_, fun {t o} ho => ?_⟩
    · have hk := (Array.getElem?_eq_some_iff.mp hw).1
      rw [Array.getElem?_push_lt hk, ← Array.getElem?_eq_getElem hk, hw]
    · rw [List.lookup_append, ho]
      rfl

/-- The scratch cell of a type is found again. -/
theorem lookup_castCell (g : GlobalLayout) (ty : Ty) :
    (g.castCell ty).2.casts.lookup ty = some (g.castCell ty).1 := by
  cases h : g.casts.lookup ty with
  | some o => rw [castCell_of_lookup_eq_some h, h]
  | none =>
    rw [castCell_of_lookup_eq_none h]
    simp [List.lookup_append, h]

/-- The scratch cell of a type in a region that has grown. -/
theorem mem_casts_of_lookup (h : g.casts.lookup ty = some o) : (ty, o) ∈ g.casts := by
  obtain ⟨l₁, l₂, hl, -⟩ := List.lookup_eq_some_iff.mp h
  rw [hl]
  simp

theorem block_castCell (hty : ty ≠ .void) (h : g.casts.lookup ty = none) :
    (g.castCell ty).2.Block g.values.size 1 ty := by
  intro k hk
  obtain rfl : k = 0 := by omega
  rw [castCell_of_lookup_eq_none h]
  exact ⟨.defaultOf ty, by simp, Value.ty_defaultOf hty⟩

/-- **A new scratch cell has a slot of its own.** -/
theorem Sound.castCell {names : Table Symbol} (hs : g.Sound names) (hty : ty ≠ .void) :
    (g.castCell ty).2.Sound names := by
  -- a cell that is there is shared; a new one lies behind everything else
  cases hlook : g.casts.lookup ty with
  | some o =>
    rw [castCell_of_lookup_eq_some hlook]
    exact hs
  | none =>
    have hx := g.extends_castCell ty
    have hnew := block_castCell hty hlook
    rw [castCell_of_lookup_eq_none hlook] at hx hnew ⊢
    refine ⟨fun hv => ?_, hs.separate, fun {t o} hm => ?_, fun {t o name v o'} hm hv ho' => ?_,
      fun {t t' o} hm hm' => ?_, fun {name e} he => ?_⟩
    · obtain ⟨o, ho, hpos, hb⟩ := hs.declared hv
      exact ⟨o, ho, hpos, hb.extend hx⟩
    · rcases List.mem_append.mp hm with hm | hm
      · exact (hs.cell hm).extend hx
      · cases List.mem_singleton.mp hm
        exact hnew
    · rcases List.mem_append.mp hm with hm | hm
      · exact hs.cell_apart hm hv ho'
      · cases List.mem_singleton.mp hm
        obtain ⟨o, ho, -, hb⟩ := hs.declared hv
        cases ho.symm.trans ho'
        intro hk
        exact absurd (hb.lt hk.1 hk.2) (lt_irrefl _)
    · have hlt {t : Ty} {o : Nat} (h : (t, o) ∈ g.casts) : o < g.values.size :=
        (hs.cell h).lt le_rfl (Nat.lt_succ_self o)
      rcases List.mem_append.mp hm with hm | hm <;> rcases List.mem_append.mp hm' with hm' | hm'
      · exact hs.cell_injective hm hm'
      · cases List.mem_singleton.mp hm'
        exact absurd (hlt hm) (lt_irrefl _)
      · cases List.mem_singleton.mp hm
        exact absurd (hlt hm') (lt_irrefl _)
      · cases List.mem_singleton.mp hm
        cases List.mem_singleton.mp hm'
        rfl
    · simp only [Table.get?_insert] at he
      split at he
      · cases he
        exact hnew
      · exact (hs.entry he).extend hx

/-- What a variable first holds, with its length and the value that is known of it. -/
inductive Contents (scope : Scope) (decl : Declaration) (d : Declarator) :
    List Value → Option Nat → Option Value → Prop
  | array {n : Nat} : decl.isArray = true → d.arrayLength = .ok n →
    Contents scope decl d (List.replicate n (.defaultOf decl.ty)) (some n) none
  | scalar {w : Value} : decl.isArray = false → d.FirstValue scope decl.ty w →
    Contents scope decl d [w] none (some w)

theorem contents_cases {vs : List Value} {length : Option Nat} {value : Option Value}
    (h : contents scope decl d = .ok (vs, length, value)) :
    Contents scope decl d vs length value := by
  unfold contents at h
  split at h
  next harray =>
    simp only [bind_eq_ok, pure_eq_ok] at h
    obtain ⟨n, hn, ⟨⟩⟩ := h
    exact .array harray hn
  next hscalar =>
    rw [Bool.not_eq_true] at hscalar
    cases hinit : d.initializer with
    | some init =>
      simp only [hinit, bind_eq_ok, pure_eq_ok, convertConstant_eq_ok] at h
      obtain ⟨c, hc, w, ⟨haccepts, hw⟩, ⟨⟩⟩ := h
      refine .scalar hscalar ?_
      rw [Declarator.FirstValue, hinit]
      exact ⟨c, hc, haccepts, hw⟩
    | none =>
      simp only [hinit, bind_eq_ok, pure_eq_ok] at h
      obtain ⟨w, ⟨⟩, ⟨⟩⟩ := h
      refine .scalar hscalar ?_
      rw [Declarator.FirstValue, hinit]

/-- The first contents of a variable fill its slots with values of its type. -/
theorem contents_eq_ok {vs : List Value} {length : Option Nat} {value : Option Value}
    (hty : decl.ty ≠ .void) (h : contents scope decl d = .ok (vs, length, value)) :
    vs.length = length.getD 1 ∧ 0 < length.getD 1 ∧ ∀ w ∈ vs, w.ty = decl.ty := by
  cases contents_cases h with
  | array _ hn =>
    refine ⟨List.length_replicate, arrayLength_pos hn, fun w hw => ?_⟩
    rw [List.eq_of_mem_replicate hw, Value.ty_defaultOf hty]
  | scalar _ hfirst =>
    refine ⟨rfl, Nat.one_pos, fun w hw => ?_⟩
    rw [List.mem_singleton.mp hw, hfirst.ty hty]

theorem span_of_contents {vs : List Value} {length : Option Nat} {value : Option Value}
    (h : contents scope decl d = .ok (vs, length, value)) : length.getD 1 = decl.span d := by
  cases contents_cases h with
  | array harray hn => exact (Declaration.span_of_arrayLength harray hn).symm
  | scalar hscalar _ => rw [Declaration.span, hscalar, if_neg Bool.false_ne_true, Option.getD_none]

/-- The variable that a global declaration adds. -/
theorem declareOne_eq_ok {scope' : Scope} (h : declareOne decl g scope d = .ok (g', scope')) :
    ∃ vs length value, contents scope decl d = .ok (vs, length, value) ∧
      scope.declare d.name (.variable ⟨decl.ty, decl.isArray, length, value,
        .global g.values.size⟩) = .ok scope' ∧
      g' = { g with
        values := g.values ++ vs.toArray
        entries := g.entries.insert d.name ⟨g.values.size, decl.ty, length⟩ } := by
  simp only [declareOne, bind_eq_ok, pure_eq_ok, locate_eq_ok] at h
  obtain ⟨⟨vs, length, value⟩, hc, scope₁, hs, ⟨⟩⟩ := h
  exact ⟨vs, length, value, hc, hs, rfl⟩

theorem extends_append {vs : Array Value} {entries : Table DataEntry} :
    g.Extends ⟨g.values ++ vs, entries, g.casts⟩ := by
  refine ⟨fun {k w} hw => ?_, id⟩
  rw [Array.getElem?_append_left (Array.getElem?_eq_some_iff.mp hw).1, hw]

/-- **A new global variable has slots of its own.** -/
theorem Sound.declareOne {scope' : Scope} (hs : g.Sound scope.inner) (hty : decl.ty ≠ .void)
    (h : GlobalLayout.declareOne decl g scope d = .ok (g', scope')) :
    g'.Sound scope'.inner ∧ g.Extends g' := by
  obtain ⟨vs, length, value, hc, hd, rfl⟩ := declareOne_eq_ok h
  obtain ⟨-, rfl⟩ := Scope.declare_eq_ok.mp hd
  obtain ⟨hlen, hpos, htys⟩ := contents_eq_ok hty hc
  have hx : g.Extends ⟨g.values ++ vs.toArray,
      g.entries.insert d.name ⟨g.values.size, decl.ty, length⟩, g.casts⟩ := extends_append
  have hnew : Block ⟨g.values ++ vs.toArray,
      g.entries.insert d.name ⟨g.values.size, decl.ty, length⟩, g.casts⟩ g.values.size
      (length.getD 1) decl.ty := by
    intro k hk
    rw [← hlen] at hk
    refine ⟨vs[k], ?_, htys _ (List.getElem_mem hk)⟩
    simp [hk]
  -- what is there lies below the end of the region, where the new variable starts
  have hold {name : String} {v : Variable} {o k : Nat}
      (hv : scope.inner.get? name = some (.variable v)) (ho : v.slot = .global o) (h₁ : o ≤ k)
      (h₂ : k < o + v.span) : k < g.values.size := by
    obtain ⟨o', ho', -, hb⟩ := hs.declared hv
    cases ho.symm.trans ho'
    exact hb.lt h₁ h₂
  refine ⟨⟨fun {name v} hv => ?_, fun {name name' v v' o o' k} hv hv' ho ho' => ?_,
    fun hm => (hs.cell hm).extend hx, fun {t o name v o'} hm hv ho' => ?_, hs.cell_injective,
    fun {name e} he => ?_⟩, hx⟩
  · rw [Table.get?_insert] at hv
    split at hv
    · cases hv
      exact ⟨_, rfl, hpos, hnew⟩
    · obtain ⟨o, ho, hpos, hb⟩ := hs.declared hv
      exact ⟨o, ho, hpos, hb.extend hx⟩
  · intro h₁ h₂ h₃ h₄
    rw [Table.get?_insert] at hv hv'
    split at hv <;> split at hv'
    next hn hn' => rw [hn, hn']
    next hn hn' =>
      cases hv
      cases ho
      have := hold hv' ho' h₃ h₄
      omega
    next hn hn' =>
      cases hv'
      cases ho'
      have := hold hv ho h₁ h₂
      omega
    next hn hn' => exact hs.separate hv hv' ho ho' h₁ h₂ h₃ h₄
  · rw [Table.get?_insert] at hv
    split at hv
    · cases hv
      cases ho'
      have := (hs.cell hm).lt le_rfl (Nat.lt_succ_self o)
      omega
    · exact hs.cell_apart hm hv ho'
  · simp only [Table.get?_insert] at he
    split at he
    · cases he
      exact hnew
    · exact (hs.entry he).extend hx

end GlobalLayout

/-! ## What lowering leaves of the global region -/

namespace Lowering

theorem Draws.extends {s s' : Supply} (h : Draws s s') : s.globals.Extends s'.globals := by
  induction h with
  | refl => exact .refl _
  | labels k _ ih => exact ih
  | cell _ _ ih => exact ih.trans (GlobalLayout.extends_castCell _ _)

theorem Draws.sound {s s' : Supply} {names : Table Symbol} (h : Draws s s')
    (hs : s.globals.Sound names) : s'.globals.Sound names := by
  induction h with
  | refl => exact hs
  | labels k _ ih => exact ih
  | cell hty _ ih => exact ih.castCell hty

end Lowering

end Stepwise
