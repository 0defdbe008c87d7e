import Mathlib
import Stepwise.Proofs.Accesses
import Stepwise.Proofs.StmtDiscipline

/-!
# Scopes while lowering

While the compiler goes through the text of a function, it stacks tables of names and makes up keys
of the frame where a name was there before. All the time, the tables hold what the outline of the
text says: one table for each open scope, and in it the declarations of the scope with their slots.
So a name is looked up to the declaration that it means.

## Main definitions

* `Draft.Follows`: a draft has followed an outline
* `Finds`: the operand of a use of a name
* `Scoped`: what a part of a function does to names

## Main results

* `Draft.Follows.finds`: a name is looked up to the declaration that it means
* `scoped_of_lowerStmt`: a statement finds the declarations of its names
-/

namespace Stepwise

open Lowering Snippet

/-! ## Tables and open scopes -/

/-- A table has the declarations of an open scope, each under a key whose offset is the first slot
of the declaration. -/
structure Table.Lists (frame : FrameLayout) (t : Table Symbol) (scope : List (Outline × Binding)) :
    Prop where
  found : ∀ {name before b}, scope.find? (·.2.name == name) = some (before, b) →
    ∃ v key, t.get? name = some (.variable v) ∧ v.slot = .frame key ∧
      frame.offset? key = some (b.offset before)
  absent : ∀ {name}, scope.find? (·.2.name == name) = none → t.get? name = none

namespace Table.Lists

variable {frame : FrameLayout} {t : Table Symbol} {scope : List (Outline × Binding)}

theorem empty : Lists frame .empty [] where
  found h := nomatch h
  absent _ := rfl

/-- A name that the table does not have is new. -/
theorem notMem (h : t.Lists frame scope) {name : String} (hname : t.get? name = none) :
    name ∉ scope.map fun x => x.2.name := by
  intro hmem
  obtain ⟨x, hx, rfl⟩ := List.mem_map.mp hmem
  cases hfind : scope.find? (·.2.name == x.2.name) with
  | none =>
    rw [List.find?_eq_none] at hfind
    exact hfind x hx (by simp)
  | some y =>
    obtain ⟨v, key, hv, -⟩ := h.found hfind
    cases hname.symm.trans hv

theorem insert (h : t.Lists frame scope) {before : Outline} {b : Binding} {v : Variable}
    {key : String} (hslot : v.slot = .frame key)
    (hkey : frame.offset? key = some (b.offset before)) :
    (t.insert b.name (.variable v)).Lists frame ((before, b) :: scope) := by
  constructor
  · intro name before' b' hfind
    rw [Table.get?_insert]
    by_cases hname : name = b.name
    · subst hname
      rw [List.find?_cons_of_pos (by simp)] at hfind
      cases hfind
      rw [if_pos rfl]
      exact ⟨v, key, rfl, hslot, hkey⟩
    · rw [List.find?_cons_of_neg (by simpa using Ne.symm hname)] at hfind
      rw [if_neg hname]
      exact h.found hfind
  · intro name hfind
    have hname : name ≠ b.name := by
      rintro rfl
      rw [List.find?_cons_of_pos (by simp)] at hfind
      cases hfind
    rw [List.find?_cons_of_neg (by simpa using Ne.symm hname)] at hfind
    rw [Table.get?_insert_of_ne _ hname]
    exact h.absent hfind

end Table.Lists

/-- Looking a name up in tables gives what is found in the open scopes, or what the outer tables
have. -/
theorem lookup_of_lists {frame : FrameLayout} {tables : List (Table Symbol)} {scopes : Outline.Chain}
    (h : List.Forall₂ (Table.Lists frame) tables scopes) (root : List (Table Symbol))
    (name : String) :
    (∀ {before b}, scopes.findSome? (fun scope => scope.find? (·.2.name == name)) =
        some (before, b) →
      ∃ v key, (tables ++ root).findSome? (·.get? name) = some (.variable v) ∧
        v.slot = .frame key ∧ frame.offset? key = some (b.offset before)) ∧
    (scopes.findSome? (fun scope => scope.find? (·.2.name == name)) = none →
      (tables ++ root).findSome? (·.get? name) = root.findSome? (·.get? name)) := by
  induction h with
  | nil => exact ⟨nofun, fun _ => rfl⟩
  | @cons t scope tables scopes ht _ ih =>
    rw [List.cons_append, List.findSome?_cons, List.findSome?_cons]
    cases hfind : scope.find? (·.2.name == name) with
    | none =>
      rw [ht.absent hfind]
      exact ih
    | some x =>
      obtain ⟨v, key, hv, hkey⟩ := ht.found hfind
      rw [hv]
      constructor
      · rintro before b ⟨⟩
        exact ⟨v, key, rfl, hkey⟩
      · nofun

/-! ## Drafts that follow an outline -/

/-- A draft has followed an outline: its frame has the declarations in order, and its scopes are
those that are open. The frame of the finished function and the tables around the function are
given. -/
structure Lowering.Draft.Follows (frame : FrameLayout) (root : List (Table Symbol)) (o : Outline)
    (d : Draft) : Prop where
  params : d.frame.params = o.params
  next : d.frame.next = 1 + o.room
  scopes : ∃ tables, d.scope.outer = tables ++ root ∧
    List.Forall₂ (Table.Lists frame) (d.scope.inner :: tables) (Outline.chain o)
  distinct : ∀ p, p <+: o → ∀ scope ∈ Outline.chain p, (scope.map fun x => x.2.name).Nodup
  entries : ∀ (before : Outline) (b : Binding) (after : Outline), o = before ++ .bind b :: after →
    ∃ key e, frame.entries.get? key = some e ∧ e.offset = b.offset before ∧ e.span = b.span

/-- What the operand of a use of a name has to be: the declaration that the name means has its key,
and a name that is not declared in the function means a variable of the tables around it. -/
def Finds (frame : FrameLayout) (root : List (Table Symbol)) (a : Access) (op : Operand) : Prop :=
  (∃ before b key, a.before.Selects a.use.name before b ∧
    frame.offset? key = some (b.offset before) ∧ op = .var key a.use.index) ∨
  ((∀ before b, b.name = a.use.name → ¬a.before.Visible before b) ∧
    ∃ v, root.findSome? (·.get? a.use.name) = some (.variable v) ∧
      op = v.slot.operand a.use.index)

namespace Lowering.Draft.Follows

variable {frame : FrameLayout} {root : List (Table Symbol)} {o mid : Outline} {d d' : Draft}

theorem start (scope : Scope) (globals : GlobalLayout) :
    Follows frame (scope.inner :: scope.outer) [] (.start scope globals) where
  params := rfl
  next := rfl
  scopes := ⟨[], rfl, .cons .empty .nil⟩
  distinct p hp scope hscope := by
    rw [List.prefix_nil.mp hp, Outline.chain_nil, List.mem_singleton] at hscope
    rw [hscope]
    exact List.nodup_nil
  entries before b after h := absurd h.symm (by simp)

/-- The supply and the reservations do not matter. -/
theorem congr (h : Follows frame root o d) (hframe : d'.frame = d.frame)
    (hscope : d'.scope = d.scope) : Follows frame root o d' where
  params := hframe ▸ h.params
  next := hframe ▸ h.next
  scopes := hscope ▸ h.scopes
  distinct := h.distinct
  entries := h.entries

/-- Scopes and declarations behind one more mark that is no declaration. -/
theorem entries_concat {m : Mark} (h : Follows frame root o d) (hm : ∀ b, m ≠ .bind b)
    (before : Outline) (b : Binding) (after : Outline)
    (hsplit : o ++ [m] = before ++ .bind b :: after) :
    ∃ key e, frame.entries.get? key = some e ∧ e.offset = b.offset before ∧ e.span = b.span := by
  rcases (Outline.exists_split_concat (P := fun _ => True)).mp ⟨after, hsplit, trivial⟩ with
    ⟨-, hb, -⟩ | ⟨mid, hmid, -⟩
  · exact absurd hb (hm b)
  · exact h.entries before b mid hmid

theorem distinct_concat {m : Mark} (h : Follows frame root o d)
    (hm : ∀ scope ∈ Outline.chain (o ++ [m]), (scope.map fun x => x.2.name).Nodup) (p : Outline)
    (hp : p <+: o ++ [m]) : ∀ scope ∈ Outline.chain p, (scope.map fun x => x.2.name).Nodup := by
  rcases List.prefix_concat_iff.mp hp with rfl | hp
  · exact hm
  · exact h.distinct p hp

theorem enter (h : Follows frame root o d) : Follows frame root (o ++ [Mark.enter]) d.inside := by
  obtain ⟨tables, houter, hlists⟩ := h.scopes
  refine ⟨?_, ?_, ⟨d.scope.inner :: tables, ?_, ?_⟩, h.distinct_concat ?_,
    h.entries_concat (by nofun)⟩
  · rw [Outline.params_append]
    exact h.params
  · rw [Outline.room_append]
    exact h.next
  · exact congrArg (d.scope.inner :: ·) houter
  · rw [Outline.chain_concat]
    exact .cons .empty hlists
  · intro scope hscope
    rw [Outline.chain_concat] at hscope
    rcases List.mem_cons.mp hscope with rfl | hscope
    · exact List.nodup_nil
    · exact h.distinct o List.prefix_rfl scope hscope

/-- Back in the scope around a child. -/
theorem leave (h : Follows frame root o d) (h' : Follows frame root (o ++ [Mark.enter] ++ mid) d')
    (hout : d'.scope.outer = d.scope.inner :: d.scope.outer) :
    Follows frame root (o ++ [Mark.enter] ++ mid ++ [Mark.leave]) (d'.backIn d) := by
  obtain ⟨tables, houter, -⟩ := h.scopes
  obtain ⟨tables', houter', hlists'⟩ := h'.scopes
  -- the tables around the child are those of the scope that it was opened in
  obtain rfl : tables' = d.scope.inner :: tables := by
    have hboth : tables' ++ root = (d.scope.inner :: tables) ++ root := by
      rw [← houter', hout, houter, List.cons_append]
    exact List.append_cancel_right hboth
  have hchain : List.Forall₂ (Table.Lists frame) (d.scope.inner :: tables)
      (Outline.chain (o ++ [Mark.enter] ++ mid ++ [Mark.leave])) := by
    rw [Outline.chain_concat]
    generalize Outline.chain (o ++ [Mark.enter] ++ mid) = scopes at hlists'
    cases hlists' with
    | cons _ hrest => exact hrest
  refine ⟨?_, ?_, ⟨tables, houter, hchain⟩, h'.distinct_concat ?_, h'.entries_concat (by nofun)⟩
  · rw [Outline.params_append]
    exact h'.params
  · rw [Outline.room_append]
    exact h'.next
  · intro scope hscope
    rw [Outline.chain_concat] at hscope
    exact h'.distinct _ List.prefix_rfl scope (List.mem_of_mem_tail hscope)

/-- One more declaration. -/
theorem bind (h : Follows frame root o d) {b : Binding} {v : Variable} {key : String}
    {e : FrameEntry} {scope : Scope}
    (hparams : d'.frame.params = Outline.params (o ++ [Mark.bind b]))
    (hnext : d'.frame.next = 1 + Outline.room (o ++ [Mark.bind b]))
    (hdeclare : d.scope.declare b.name (.variable v) = .ok scope) (hscope : d'.scope = scope)
    (hslot : v.slot = .frame key) (he : frame.entries.get? key = some e)
    (hoffset : e.offset = b.offset o) (hspan : e.span = b.span) :
    Follows frame root (o ++ [Mark.bind b]) d' := by
  obtain ⟨hnew, rfl⟩ := Scope.declare_eq_ok.mp hdeclare
  obtain ⟨tables, houter, hlists⟩ := h.scopes
  have hkey : frame.offset? key = some (b.offset o) := by
    rw [FrameLayout.offset?, he, Option.map_some, hoffset]
  have hdistinct := h.distinct o List.prefix_rfl
  have hchain := Outline.chain_concat o (.bind b)
  generalize hscopes : Outline.chain o = scopes at hlists hdistinct hchain
  -- only the innermost table gets the new name
  cases hlists with
  | @cons _ first _ rest hinner hrest =>
    refine ⟨hparams, hnext, ⟨tables, by rw [hscope]; exact houter, ?_⟩, h.distinct_concat ?_, ?_⟩
    · rw [hscope, hchain]
      exact .cons (hinner.insert hslot hkey) hrest
    · intro scope hmem
      rw [hchain] at hmem
      rcases List.mem_cons.mp hmem with rfl | hmem
      · exact List.nodup_cons.mpr ⟨hinner.notMem hnew, hdistinct _ List.mem_cons_self⟩
      · exact hdistinct scope (List.mem_cons_of_mem _ hmem)
    · intro before b' after hsplit
      rcases (Outline.exists_split_concat (P := fun _ => True)).mp ⟨after, hsplit, trivial⟩ with
        ⟨rfl, hb, -⟩ | ⟨mid, hmid, -⟩
      · cases hb
        exact ⟨key, e, he, hoffset, hspan⟩
      · exact h.entries before b' mid hmid

/-- The operand that the scope gives to a name is that of the declaration that the name means. -/
theorem finds (h : Follows frame root o d) {u : Use} {op : Operand} (hu : d.scope.Means u op) :
    Finds frame root ⟨o, u⟩ op := by
  obtain ⟨tables, houter, hlists⟩ := h.scopes
  obtain ⟨v, hv, rfl⟩ := hu
  obtain ⟨hfound, habsent⟩ := lookup_of_lists hlists root u.name
  rw [Scope.lookup?, houter, ← List.cons_append] at hv
  cases hfind : o.find? u.name with
  | none =>
    rw [habsent hfind] at hv
    exact .inr ⟨fun before b hb => Outline.not_visible_of_find? hfind hb, v, hv, rfl⟩
  | some x =>
    obtain ⟨before, b⟩ := x
    obtain ⟨v', key, hv', hslot, hkey⟩ := hfound hfind
    cases hv.symm.trans hv'
    refine .inl ⟨before, b, key, Outline.selects_of_find? hfind, hkey, ?_⟩
    rw [hslot]
    rfl

/-- A scope whose outer variables lie apart from the scratch cells. -/
theorem clearOf (h : Follows frame root o d) {cells : List (Ty × Nat)}
    (hroot : ∀ name v index, root.findSome? (·.get? name) = some (.variable v) →
      (v.slot.operand index).inMemory cells = true) : d.scope.ClearOf cells := by
  intro name v index hv
  rcases h.finds (u := ⟨name, index⟩) ⟨v, hv, rfl⟩ with ⟨_, _, key, -, -, hop⟩ | ⟨-, v', hv', hop⟩
  · rw [hop]
    rfl
  · rw [hop]
    exact hroot name v' index hv'

end Lowering.Draft.Follows

/-! ## Statements -/

/-- Reservations have no operands in memory. -/
theorem memory_of_slotCode {cells : List (Ty × Nat)} {frame : FrameLayout} {k : Nat} {c : Code}
    (h : SlotCode frame k c) : c.memory cells = [] := by
  induction c generalizing k with
  | nil => rfl
  | cons line c ih =>
    cases line with
    | label name => exact h.elim
    | instr i =>
      obtain ⟨⟨v, comment, hi, -⟩, hrest⟩ := h
      have hmem : i.memory cells = [] := congrArg (Instr.memory cells) hi
      rw [Code.memory_cons_instr, hmem, ih hrest, List.nil_append]

theorem memory_arraySlots (cells : List (Ty × Nat)) (ty : Ty) (dr : Declarator) (n : Nat) :
    (arraySlots ty dr n).memory cells = [] := by
  rw [arraySlots, Code.memory_ofInstrs, List.flatMap_eq_nil_iff]
  intro i hi
  obtain ⟨k, -, rfl⟩ := List.mem_map.mp hi
  rfl

section Scoped

variable {frame : FrameLayout} {root : List (Table Symbol)} {final : GlobalLayout}

/-- A draft belongs to the finished function: its frame and its global region have grown to those of
the function. -/
structure Lowering.Draft.Within (frame : FrameLayout) (final : GlobalLayout) (d : Draft) : Prop where
  frame : d.frame.Extends frame
  globals : d.supply.globals.Extends final

theorem Lowering.Draft.Within.of_grows {d d' : Draft} {slots : Code} (h : d'.Within frame final)
    (hg : d.Grows d' slots) : d.Within frame final :=
  ⟨hg.frame.trans h.frame, hg.supply.extends.trans h.globals⟩

/-- What a part of a function does between two drafts: it follows its outline, leaves the scopes
around it alone, and its operands are those of its names. -/
structure Scoped (frame : FrameLayout) (root : List (Table Symbol)) (final : GlobalLayout)
    (o : Outline) (accs : List Access) (d d' : Draft) (code : Code) : Prop where
  follows : d'.Follows frame root o
  outer : d'.scope.outer = d.scope.outer
  matched : Matched (Finds frame root) final accs code

namespace Scoped

variable {o o' mid : Outline} {accs accs' : List Access} {d d₁ d' : Draft} {code code' : Code}

/-- Two parts one after the other. -/
theorem seq (h : Scoped frame root final o accs d d₁ code)
    (h' : Scoped frame root final o' accs' d₁ d' code') :
    Scoped frame root final o' (accs ++ accs') d d' (code ++ code') :=
  ⟨h'.follows, h'.outer.trans h.outer, h.matched.append h'.matched⟩

/-- Other code with the same operands in memory, and another supply. -/
theorem congr (h : Scoped frame root final o accs d d₁ code) (hframe : d'.frame = d₁.frame)
    (hscope : d'.scope = d₁.scope) (hcode : code'.memory final.casts = code.memory final.casts) :
    Scoped frame root final o accs d d' code' := by
  refine ⟨h.follows.congr hframe hscope, hscope ▸ h.outer, ?_⟩
  unfold Matched
  rw [hcode]
  exact h.matched

/-- A part in a scope of its own. -/
theorem child (hf : d.Follows frame root o)
    (h : Scoped frame root final (o ++ [Mark.enter] ++ mid) accs d₁ d' code)
    (hscope : d₁.scope = d.scope.child) :
    Scoped frame root final (o ++ (Mark.enter :: mid ++ [Mark.leave])) accs d (d'.backIn d)
      code := by
  have hout : d'.scope.outer = d.scope.inner :: d.scope.outer := by
    rw [h.outer, hscope]
    rfl
  have ho : o ++ (Mark.enter :: mid ++ [Mark.leave]) =
      o ++ [Mark.enter] ++ mid ++ [Mark.leave] := by
    simp
  rw [ho]
  exact ⟨hf.leave h.follows hout, rfl, h.matched⟩

end Scoped

theorem Lowering.Draft.Follows.matched {o : Outline} {d : Draft} {us : List Use} {code : Code}
    (hf : d.Follows frame root o) (h : Matched d.scope.Means final us code) :
    Matched (Finds frame root) final (us.map (Access.mk o)) code := by
  unfold Matched
  rw [List.forall₂_map_left_iff]
  exact h.imp fun _ _ hu => hf.finds hu

/-- An expression declares nothing. -/
theorem scoped_of_matched {o : Outline} {d d' : Draft} {us : List Use} {code : Code}
    (hf : d.Follows frame root o) (h : Matched d.scope.Means final us code)
    (hframe : d'.frame = d.frame) (hscope : d'.scope = d.scope) :
    Scoped frame root final o (us.map (Access.mk o)) d d' code :=
  ⟨hf.congr hframe hscope, congrArg Scope.outer hscope, hf.matched h⟩

/-- The variables around the function lie apart from the scratch cells. -/
def ClearRoot (root : List (Table Symbol)) (final : GlobalLayout) : Prop :=
  ∀ name v index, root.findSome? (·.get? name) = some (.variable v) →
    (v.slot.operand index).inMemory final.casts = true

section Declared

variable {site : Site} {decl : Declaration} {dr : Declarator} {o : Outline} {d d' : Draft}
  {code : Code}

/-- A draft in which one more variable is declared. -/
theorem follows_declared {length : Option Nat} {isArray : Bool} {s : Supply} {scope : Scope}
    {slots : Code} (hf : d.Follows frame root o) (hlength : length.getD 1 = decl.span dr)
    (hdeclare : d.scope.declare dr.name
      (.variable ⟨decl.ty, isArray, length, none, newSlot d dr⟩) = .ok scope)
    (hw : (declared site d s decl.ty dr length scope slots).Within frame final) :
    (declared site d s decl.ty dr length scope slots).Follows frame root
      (o ++ [Mark.bind (.var dr.name (decl.span dr))]) := by
  refine hf.bind  ?_ ?_ hdeclare rfl rfl
    (hw.frame.entries (FrameLayout.get?_addLocal _ _ _ _)) ?_ hlength
  · rw [Outline.params_append]
    exact hf.params
  · have hnext := hf.next
    simp only [declared, FrameLayout.next_addLocal, Outline.room_append, Outline.room_cons,
      Outline.room_nil, Mark.slots, hlength]
    omega
  · simp only [Binding.offset]
    rw [hf.next]

/-- The first value of a variable is stored in it after the initializer has been computed. -/
theorem Lowering.Initialized.matched {ty : Ty} {dest : Operand} {initial : Initial} {s : Supply}
    {self : Access} (h : Initialized site ty dest d dr initial s) (hroot : ClearRoot root final)
    (hf : d.Follows frame root o) (hself : Named (Finds frame root) final [self] dest)
    (hx : s.globals.Extends final) :
    Matched (Finds frame root) final (initialAccesses site.nested o self dr.initializer)
      (if site.nested then initial.storeCode ty dest else initial.slotCode ty dr.name) := by
  have hslot (v : Value) : Code.memory final.casts (Code.ofInstrs [slotInstr ty dr.name v]) = [] :=
    rfl
  have hstore (v : Value) :
      Code.memory final.casts (Code.ofInstrs [.mov dest (.imm v)]) = [dest] := by
    simp [Instr.memory, Instr.operands, Instr.mov, Instr.binary, hself.2]
  have hconstant (v : Value) : Matched (Finds frame root) final (if site.nested then [self] else [])
      (if site.nested then Code.ofInstrs [.mov dest (.imm v)]
        else Code.ofInstrs [slotInstr ty dr.name v]) := by
    split
    · exact hself.matched (hstore v)
    · exact matched_of_nil (hslot v)
  cases h with
  | default hnone =>
    rw [hnone]
    exact hconstant _
  | constant hliteral =>
    rw [hliteral]
    exact hconstant _
  | @computed init store _ hinit hne hst =>
    have hstored : Matched (Finds frame root) final
        (init.stored (Access.mk o) [self] (init.uses.map (Access.mk o))) store :=
      hst.matched (hf.clearOf hroot) (fun _ _ hu => hf.finds hu) hself
        (fun _ _ _ hl hx => hf.matched (readsOnly_lower (hf.clearOf hroot) init hl hx)) hx
    -- only a literal is stored without being computed
    have haccs : initialAccesses site.nested o self (some init) =
        init.stored (Access.mk o) [self] (init.uses.map (Access.mk o)) := by
      cases init with
      | literal v loc => exact absurd rfl (hne v loc)
      | _ => rfl
    rw [hinit, haccs]
    split
    · exact hstored
    · exact (matched_of_nil (hslot _)).append hstored

/-- **A declared variable is found from there on**, and its initializer does not find it. -/
theorem scoped_of_declared (hroot : ClearRoot root final) (h : Declared site decl d dr code d')
    (hf : d.Follows frame root o) (hw : d'.Within frame final) :
    Scoped frame root final (o ++ [Mark.bind (.var dr.name (decl.span dr))])
      (decl.access site.nested o dr) d d' code := by
  cases h with
  | @array n scope harray hn hdeclare =>
    have hspan := Declaration.span_of_arrayLength harray hn
    obtain ⟨-, hscope⟩ := Scope.declare_eq_ok.mp hdeclare
    refine ⟨follows_declared hf hspan.symm hdeclare hw, ?_, ?_⟩
    · show scope.outer = _
      rw [hscope]
    · rw [Declaration.access, if_pos harray]
      apply matched_of_nil
      split
      · rfl
      · exact memory_arraySlots _ _ _ _
  | @scalar initial s scope harray hinit hdeclare =>
    have hspan : (none : Option Nat).getD 1 = decl.span dr := by
      rw [Declaration.span, harray]
      rfl
    have hfollows := follows_declared hf hspan hdeclare hw
    obtain ⟨-, hscope⟩ := Scope.declare_eq_ok.mp hdeclare
    refine ⟨hfollows, ?_, Matched.located ?_ _⟩
    · show scope.outer = _
      rw [hscope]
    -- the variable itself, as its first value is stored
    have hself : Named (Finds frame root) final
        [⟨o ++ [Mark.bind (.var dr.name (decl.span dr))], dr.name, none⟩]
        ((newSlot d dr).operand none) := by
      have hmeans : scope.Means ⟨dr.name, none⟩ ((newSlot d dr).operand none) :=
        ⟨_, by rw [Scope.lookup?_of_declare hdeclare, if_pos rfl], rfl⟩
      exact ⟨.cons (hfollows.finds hmeans) .nil, rfl⟩
    rw [Declaration.access, harray, if_neg Bool.false_ne_true]
    exact hinit.matched hroot hf hself hw.globals

theorem scoped_of_declareLocals (hroot : ClearRoot root final) (hty : decl.ty ≠ .void)
    {drs : List Declarator} (h : declareLocals site decl drs d = .ok (code, d'))
    (hf : d.Follows frame root o) (hw : d'.Within frame final) :
    Scoped frame root final (o ++ decl.outline drs) (decl.accesses site.nested o drs) d d' code := by
  induction drs generalizing o d code with
  | nil =>
    cases h
    rw [Declaration.outline, List.map_nil, List.append_nil]
    exact ⟨hf, rfl, matched_of_nil rfl⟩
  | cons dr rest ih =>
    obtain ⟨here, d₁, after, hd, hr, rfl⟩ := declareLocals_cons_eq_ok h
    obtain ⟨_, hg, -⟩ := grows_of_declareLocals hty hr
    have hhere := scoped_of_declared hroot hd hf (hw.of_grows hg)
    have hrest := ih hr hhere.follows
    rw [List.append_assoc] at hrest
    exact hhere.seq hrest

end Declared

section Snippets

variable (cells : List (Ty × Nat))

@[simp]
theorem memory_cons_jumpIfZero (l : String) (c : Code) :
    Code.memory cells (jumpIfZero l :: c) = c.memory cells := rfl

@[simp]
theorem memory_cons_jump (l : String) (c : Code) :
    Code.memory cells (jump l :: c) = c.memory cells := rfl

@[simp]
theorem memory_conditionCode (test : Code) :
    (conditionCode test).memory cells = test.memory cells := by
  have hpop : Code.memory cells (Code.ofInstrs [.pop r0]) = [] := rfl
  rw [conditionCode, Code.memory_append, hpop, List.append_nil]

end Snippets

/-! ### One statement after the other -/

/-- A statement finds the declarations of its names, wherever it stands. -/
def ScopedStmt (frame : FrameLayout) (root : List (Table Symbol)) (final : GlobalLayout)
    (stmt : Stmt) : Prop :=
  ∀ ⦃site : Site⦄ ⦃d d' : Draft⦄ ⦃code : Code⦄ ⦃o : Outline⦄,
    lowerStmt site stmt d = .ok (code, d') → d.Follows frame root o → d'.Within frame final →
    Scoped frame root final (o ++ stmt.outline) (stmt.accesses site.nested o) d d' code

section Statements

variable {site : Site} {o : Outline} {d d' : Draft} {code : Code}

theorem scoped_of_lowerStmts {body : List Stmt} (ih : ∀ s ∈ body, ScopedStmt frame root final s)
    (hnest : site.nested = true) (h : lowerStmts site body d = .ok (code, d'))
    (hf : d.Follows frame root o) (hw : d'.Within frame final) :
    Scoped frame root final (o ++ Stmt.outlineAll body) (Stmt.accessesAll site.nested o body)
      d d' code := by
  induction body generalizing o d code with
  | nil =>
    obtain ⟨rfl, rfl⟩ := lowerStmts_nil_eq_ok.mp h
    rw [Stmt.outlineAll, Stmt.accessesAll, List.append_nil]
    exact ⟨hf, rfl, matched_of_nil rfl⟩
  | cons stmt rest ihl =>
    obtain ⟨here, d₁, after, hhere, hafter, rfl⟩ := lowerStmts_cons_eq_ok.mp h
    obtain ⟨_, hg, -⟩ := defers_of_nested hnest hafter
    have hfirst := ih stmt List.mem_cons_self hhere hf (hw.of_grows hg)
    have hrest := ihl (fun s hs => ih s (List.mem_cons_of_mem _ hs)) hafter hfirst.follows
    rw [Stmt.outlineAll, Stmt.accessesAll, ← List.append_assoc]
    exact hfirst.seq hrest

theorem scoped_of_loweredInit {init : Option Stmt} (ih : ∀ s ∈ init, ScopedStmt frame root final s)
    (h : LoweredInit site d init code d') (hf : d.Follows frame root o)
    (hw : d'.Within frame final) :
    Scoped frame root final (o ++ Stmt.optionOutline init)
      (init.elim [] (Stmt.accesses site.nested o)) d d' code := by
  cases h with
  | absent =>
    rw [Stmt.optionOutline, List.append_nil]
    exact ⟨hf, rfl, matched_of_nil rfl⟩
  | present hs => exact ih _ rfl hs hf hw

theorem scoped_of_loweredTest {test : Option Expr} {testCode : Option Code} {s s' : Supply}
    (hroot : ClearRoot root final)
    (h : LoweredTest site.fn d.scope s test testCode s') (exit : String)
    (hf : d.Follows frame root o) (hx : s'.globals.Extends final) :
    Scoped frame root final o (test.elim [] fun e => e.uses.map (Access.mk o)) d (d.withSupply s')
      (Lowering.testCode exit testCode) := by
  cases h with
  | absent => exact ⟨hf.congr rfl rfl, rfl, matched_of_nil rfl⟩
  | present hl =>
    have hreads := readsOnly_lower (hf.clearOf hroot) _ hl hx
    exact (scoped_of_matched hf hreads rfl rfl).congr rfl rfl (by simp [Lowering.testCode])

theorem matched_of_loweredUpdate {update : Option Expr} {s s' : Supply}
    (hroot : ClearRoot root final) (h : LoweredUpdate site.fn d.scope s update code s')
    (hf : d.Follows frame root o) (hx : s'.globals.Extends final) :
    Matched (Finds frame root) final (update.elim [] fun e => e.effectUses.map (Access.mk o))
      code := by
  cases h with
  | absent => exact matched_of_nil rfl
  | present hl =>
    exact (hf.matched (matched_lowerEffect (hf.clearOf hroot) hl hx)).located _

/-- **A loop with a header finds the declarations of its names.** The names of the header are
declared in a scope of their own, around that of the body. -/
theorem scoped_of_forLoop (hroot : ClearRoot root final) {init : Option Stmt}
    {test update : Option Expr} {body : Stmt} {loc : Location}
    (ihi : ∀ s ∈ init, ScopedStmt frame root final s) (ihb : ScopedStmt frame root final body)
    (h : LoweredStmt site d (.forLoop init test update body loc) code d')
    (hf : d.Follows frame root o) (hw : d'.Within frame final) :
    Scoped frame root final (o ++ Stmt.outline (.forLoop init test update body loc))
      (Stmt.accesses site.nested o (.forLoop init test update body loc)) d d' code := by
  cases h with
  | @forLoop _ _ _ _ _ initCode bodyCode updateCode test' s s' d₁ d₂ hi ht hb hu =>
    have hw₂ : d₂.Within frame final := ⟨hw.frame, hu.draws.extends.trans hw.globals⟩
    obtain ⟨_, hg, -⟩ := defers_of_lowerStmt (.inl rfl) hb
    have hin := hw₂.of_grows hg
    have hw₁ : d₁.Within frame final := ⟨hin.frame, ht.draws.extends.trans hin.globals⟩
    have hinit := scoped_of_loweredInit ihi hi hf.enter hw₁
    have htest := scoped_of_loweredTest hroot ht
      (labelName site.fn "endfor" (d₁.supply.labels + 2)) hinit.follows hin.globals
    have hbody := Scoped.child htest.follows (ihb hb htest.follows.enter hw₂) rfl
    have hupdate := matched_of_loweredUpdate hroot hu hinit.follows hw.globals
    have hall := (hinit.seq htest).seq hbody
    -- the header and the body together are in one scope
    have hloop : Scoped frame root final (o ++ [Mark.enter] ++ (Stmt.optionOutline init ++
        (Mark.enter :: body.outline ++ [Mark.leave]))) _ d.inside _ _ :=
      ⟨by rw [← List.append_assoc]; exact hall.follows, hall.outer, hall.matched.append hupdate⟩
    have houtline : Stmt.outline (.forLoop init test update body loc) =
        Mark.enter :: (Stmt.optionOutline init ++ (Mark.enter :: body.outline ++ [Mark.leave])) ++
          [Mark.leave] := by
      cases init <;> simp [Stmt.outline, Stmt.optionOutline]
    have haccs : Stmt.accesses site.nested o (.forLoop init test update body loc) =
        init.elim [] (Stmt.accesses true (o ++ [Mark.enter])) ++
          (test.elim [] fun e => e.uses.map
            (Access.mk (o ++ [Mark.enter] ++ Stmt.optionOutline init))) ++
          body.accesses true (o ++ [Mark.enter] ++ Stmt.optionOutline init ++ [Mark.enter]) ++
          (update.elim [] fun e => e.effectUses.map
            (Access.mk (o ++ [Mark.enter] ++ Stmt.optionOutline init))) := by
      cases init <;> simp [Stmt.accesses, Stmt.optionOutline]
    rw [houtline, haccs, forCode_eq]
    exact (Scoped.child hf hloop rfl).congr rfl rfl (by simp [Strand.codes, Strand.code])

/-- **A statement finds the declarations of its names.** -/
theorem scoped_of_lowerStmt (hroot : ClearRoot root final) (stmt : Stmt) :
    ScopedStmt frame root final stmt := by
  intro site d d' code o h
  revert o
  refine lowerStmt_induct (fun {site d stmt c d'} _ hc ih o hf hw => ?_) h
  have ih {s : Stmt} (hs : Encloses stmt s) : ScopedStmt frame root final s :=
    fun _ _ _ _ _ hr hf hw => ih hs hr hf hw
  -- places in the source change nothing about memory, in any of the cases
  have hlocated : (Code.located stmt.loc c).memory final.casts = c.memory final.casts :=
    Code.memory_located _ _ _
  cases hc with
  | declare hty hd =>
    rw [Stmt.outline, Stmt.accesses]
    exact (scoped_of_declareLocals hroot hty hd hf hw).congr rfl rfl hlocated
  | block hb =>
    have hbody := scoped_of_lowerStmts (fun _ hs => ih (.inBlock hs)) rfl hb hf.enter
      ⟨hw.frame, hw.globals⟩
    rw [Stmt.outline, Stmt.accesses]
    exact (Scoped.child hf hbody rfl).congr rfl rfl hlocated
  | @branch _ _ _ _ _ _ _ d₁ ht hc =>
    have hw₁ : d₁.Within frame final := ⟨hw.frame, hw.globals⟩
    obtain ⟨_, hg, -⟩ := defers_of_lowerStmt (.inl rfl) hc
    have htest := scoped_of_loweredTest hroot (.present ht)
      (labelName site.fn "endif" d₁.supply.labels) hf (hw₁.of_grows hg).globals
    have hthen := Scoped.child htest.follows (ih .consequent hc htest.follows.enter hw₁) rfl
    rw [Stmt.outline, Stmt.accesses, List.append_nil]
    rw [branchCode_eq] at hlocated ⊢
    exact (htest.seq hthen).congr rfl rfl (hlocated.trans (by simp [Strand.codes, Strand.code]))
  | @branchElse _ consequent _ _ _ thenCode _ _ s d₁ d₂ ht hc ha =>
    have hw₂ : d₂.Within frame final := ⟨hw.frame, hw.globals⟩
    obtain ⟨_, hg₂, -⟩ := defers_of_lowerStmt (.inl rfl) ha
    have hin := hw₂.of_grows hg₂
    have hw₁ : d₁.Within frame final := ⟨hin.frame, hin.globals⟩
    obtain ⟨_, hg₁, -⟩ := defers_of_lowerStmt (.inl rfl) hc
    have htest := scoped_of_loweredTest hroot (.present ht)
      (labelName site.fn "else" d₂.supply.labels) hf (hw₁.of_grows hg₁).globals
    have hthen : Scoped frame root final _ _ _ ((d₁.backIn d).withLabels 1) thenCode :=
      (Scoped.child htest.follows (ih .consequent hc htest.follows.enter hw₁) rfl).congr rfl rfl rfl
    have helse := Scoped.child hthen.follows (ih (.alternate rfl) ha hthen.follows.enter hw₂) rfl
    -- the alternative follows the marks of the consequent, which has left its scope again
    have houtline (mid : Outline) : o ++ (Mark.enter :: consequent.outline ++ Mark.leave :: mid) =
        o ++ (Mark.enter :: consequent.outline ++ [Mark.leave]) ++ mid := by
      simp
    rw [Stmt.outline, houtline, Stmt.accesses, List.append_assoc o _ [Mark.leave]]
    rw [branchElseCode_eq] at hlocated ⊢
    exact ((htest.seq hthen).seq helse).congr rfl rfl
      (hlocated.trans (by simp [Strand.codes, Strand.code]))
  | @whileLoop _ _ _ _ _ _ _ d₁ ht hb =>
    have hw₁ : d₁.Within frame final := ⟨hw.frame, hw.globals⟩
    obtain ⟨_, hg, -⟩ := defers_of_lowerStmt (.inl rfl) hb
    have htest := scoped_of_loweredTest hroot (.present ht)
      (labelName site.fn "endwhile" (d.supply.labels + 1)) hf (hw₁.of_grows hg).globals
    have hbody := Scoped.child htest.follows (ih .whileBody hb htest.follows.enter hw₁) rfl
    rw [Stmt.outline, Stmt.accesses]
    rw [whileCode_eq] at hlocated ⊢
    exact (htest.seq hbody).congr rfl rfl (hlocated.trans (by simp [Strand.codes, Strand.code]))
  | @doLoop _ _ _ _ _ _ s d₁ hb ht =>
    have hw₁ : d₁.Within frame final :=
      ⟨hw.frame, (draws_of_lower _ _ _ ht).extends.trans hw.globals⟩
    have hstart : (d.withLabels 3).Follows frame root o := hf.congr rfl rfl
    have hbody := Scoped.child hf (ih .doBody hb hstart.enter hw₁) rfl
    have htest := scoped_of_loweredTest (d := d₁.backIn d) hroot (.present ht)
      (labelName site.fn "enddo" (d.supply.labels + 2)) hbody.follows hw.globals
    rw [Stmt.outline, Stmt.accesses, List.append_assoc o]
    rw [doCode_eq] at hlocated ⊢
    exact (hbody.seq htest).congr rfl rfl (hlocated.trans (by simp [Strand.codes, Strand.code]))
  | forLoop hi ht hb hu =>
    exact (scoped_of_forLoop hroot (fun _ hs => ih (.forInit hs)) (ih .forBody)
      (.forLoop hi ht hb hu) hf hw).congr rfl rfl hlocated
  | ret _ | brk _ | cont _ =>
    rw [Stmt.outline, List.append_nil, Stmt.accesses]
    exact ⟨hf, rfl, matched_of_nil rfl⟩
  | @retValue e _ c s hne hv =>
    rw [Stmt.outline, List.append_nil, Stmt.accesses]
    have hvalue := hv.matched (readsOnly_lower (hf.clearOf hroot) e) hw.globals
    have htail : Code.memory final.casts (Code.ofInstrs [.pop rv, .ret]) = [] := rfl
    exact scoped_of_matched hf ((hvalue.then htail).located _) rfl rfl
  | expr he =>
    rw [Stmt.outline, List.append_nil, Stmt.accesses]
    have heffect := matched_lowerEffect (hf.clearOf hroot) he hw.globals
    exact scoped_of_matched hf (heffect.located _) rfl rfl

/-- The statements of a function body, each with its reservations in front. -/
theorem scoped_of_lowerBody (hroot : ClearRoot root final) {body : List Stmt}
    (hnest : site.nested = false) (hempty : d.reserved = [])
    (h : lowerBody site body d = .ok (code, d')) (hf : d.Follows frame root o)
    (hw : d'.Within frame final) :
    Scoped frame root final (o ++ Stmt.outlineAll body) (Stmt.accessesAll site.nested o body)
      d d' code := by
  induction body generalizing o d code with
  | nil =>
    obtain ⟨rfl, rfl⟩ := lowerBody_nil_eq_ok.mp h
    rw [Stmt.outlineAll, Stmt.accessesAll, List.append_nil]
    exact ⟨hf, rfl, matched_of_nil rfl⟩
  | cons stmt rest ih =>
    obtain ⟨here, d₁, after, hhere, hafter, rfl⟩ := lowerBody_cons_eq_ok.mp h
    obtain ⟨slots, hg, hdeferred, hinline, -⟩ := Setting.grows_of_bodyStmt hnest hempty hhere
    obtain ⟨_, hrest⟩ := Setting.grows_of_lowerBody hnest rfl hafter
    -- reservations touch no variable
    have hreserved : d₁.reserved.memory final.casts = [] := by
      by_cases hdef : Deferred site stmt
      · rw [hdeferred hdef]
        exact memory_of_slotCode hg.slots
      · rw [hinline hdef]
        rfl
    have hw₁ : d₁.Within frame final :=
      ⟨(hw.of_grows hrest).frame, (hw.of_grows hrest).globals⟩
    have hfirst := scoped_of_lowerStmt hroot stmt hhere hf hw₁
    have hhead : Scoped frame root final _ _ d d₁.emptied (d₁.reserved ++ here) :=
      hfirst.congr rfl rfl (by rw [Code.memory_append, hreserved, List.nil_append])
    rw [Stmt.outlineAll, Stmt.accessesAll, ← List.append_assoc]
    exact hhead.seq (ih rfl hafter hhead.follows)

end Statements

end Scoped

end Stepwise
