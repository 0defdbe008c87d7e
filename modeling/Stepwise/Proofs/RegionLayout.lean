import Mathlib
import Stepwise.Proofs.AlignedRegions

/-!
# Ranges of the global region

Variables and scratch cells share one region: a cell is made when it is first needed, between the
variables of one declaration and those of the next. In whatever order they are asked for, each has
a range of slots of its own, the ranges follow each other in the order in which they were first
asked for, and what is laid out stays as it is.

## Main definitions

* `Owner`, `Owner.extent?`: variables and cells, and their ranges
* `Lays`, `LaysAll`: owners are laid out, one and several
* `RegionRequest.serveAll`: declarations and cells that are asked for one after the other

## Main results

* `Lays.grants`: the owner has its range already, or gets one at the end of the region
* `Settled.lays`: ranges without gaps are kept
* `region_layout`: the region after any requests
-/

namespace Stepwise

/-! ## Ranges -/

/-- A range of slots, with the type of what they hold. -/
structure Extent where
  start : Nat
  span : Nat
  ty : Ty
  deriving DecidableEq, Repr

namespace Extent

/-- The first slot behind a range. -/
def stop (e : Extent) : Nat := e.start + e.span

/-- A slot lies in a range. -/
def Covers (e : Extent) (k : Nat) : Prop := e.start ≤ k ∧ k < e.stop

/-- Ranges follow each other without a gap from one slot up to another. -/
def Tile : Nat → List Extent → Nat → Prop
  | lo, [], hi => lo = hi
  | lo, e :: es, hi => e.start = lo ∧ Tile e.stop es hi

variable {lo hi k : Nat} {e : Extent} {es : List Extent}

theorem Tile.snoc (h : Tile lo es hi) (he : e.start = hi) : Tile lo (es ++ [e]) e.stop := by
  induction es generalizing lo with
  | nil => exact ⟨he.trans (Eq.symm h), rfl⟩
  | cons x es ih => exact ⟨h.1, ih h.2⟩

theorem Tile.le (h : Tile lo es hi) : lo ≤ hi := by
  induction es generalizing lo with
  | nil => exact le_of_eq h
  | cons x es ih =>
    have hstop := ih h.2
    rw [stop, h.1] at hstop
    omega

theorem Tile.le_start (h : Tile lo es hi) (he : e ∈ es) : lo ≤ e.start := by
  induction es generalizing lo with
  | nil => cases he
  | cons x es ih =>
    rcases List.mem_cons.mp he with rfl | he
    · exact h.1.ge
    · have hstop := ih h.2 he
      rw [stop, h.1] at hstop
      omega

/-- Ranges without gaps do not overlap. -/
theorem Tile.pairwise (h : Tile lo es hi) : es.Pairwise fun e e' => e.stop ≤ e'.start := by
  induction es generalizing lo with
  | nil => exact .nil
  | cons x es ih => exact .cons (fun e he => h.2.le_start he) (ih h.2)

/-- Ranges without gaps cover what lies between their ends. -/
theorem Tile.covers_iff (h : Tile lo es hi) : (lo ≤ k ∧ k < hi) ↔ ∃ e ∈ es, e.Covers k := by
  induction es generalizing lo with
  | nil =>
    obtain rfl : lo = hi := h
    simp only [List.not_mem_nil, false_and, exists_false, iff_false]
    omega
  | cons x es ih =>
    obtain ⟨rfl, hrest⟩ := h
    have hle := hrest.le
    rw [List.exists_mem_cons_iff, ← ih hrest, Covers]
    unfold stop at hle ⊢
    omega

end Extent

/-! ## Owners -/

/-- What has slots of its own in the region: a variable, or the scratch cell of a type. -/
inductive Owner where
  | global (name : String)
  | cell (ty : Ty)
  deriving DecidableEq, Repr

/-- The range of a global variable. -/
def Symbol.extent? : Symbol → Option Extent
  | .variable v =>
    match v.slot with
    | .global offset => some ⟨offset, v.span, v.ty⟩
    | .frame _ => none
  | .function _ => none

/-- The range of an owner in a region with its scope. -/
def Owner.extent? (r : GlobalLayout × Scope) : Owner → Option Extent
  | .global name => (r.2.inner.get? name).bind Symbol.extent?
  | .cell ty => (r.1.casts.lookup ty).map (⟨·, 1, ty⟩)

/-- One owner is laid out: a variable of a declaration, or a scratch cell. -/
inductive Lays : GlobalLayout × Scope → Owner → GlobalLayout × Scope → Prop
  | global {g : GlobalLayout} {scope : Scope} {decl : Declaration} {d : Declarator}
    {r : GlobalLayout × Scope} : decl.ty ≠ .void →
    GlobalLayout.declareOne decl g scope d = .ok r → Lays (g, scope) (.global d.name) r
  | cell {g : GlobalLayout} {scope : Scope} {ty : Ty} : ty ≠ .void →
    Lays (g, scope) (.cell ty) ((g.castCell ty).2, scope)

/-- Owners are laid out one after the other. -/
inductive LaysAll : GlobalLayout × Scope → List Owner → GlobalLayout × Scope → Prop
  | nil (r : GlobalLayout × Scope) : LaysAll r [] r
  | cons {r r₁ r' : GlobalLayout × Scope} {o : Owner} {os : List Owner} :
    Lays r o r₁ → LaysAll r₁ os r' → LaysAll r (o :: os) r'

/-- The range of an owner is there, or is added at the end of the region. -/
inductive Grants (o : Owner) (r : GlobalLayout × Scope) : GlobalLayout × Scope → Prop
  | found {e : Extent} : o.extent? r = some e → Grants o r r
  | added {r' : GlobalLayout × Scope} {vs : List Value} {ty : Ty} : o.extent? r = none →
    r'.1.values = r.1.values ++ vs.toArray →
    (∀ o' : Owner, o'.extent? r' =
      if o' = o then some ⟨r.1.values.size, vs.length, ty⟩ else o'.extent? r) → Grants o r r'

variable {r r₁ r' : GlobalLayout × Scope} {o : Owner} {os os' : List Owner}

/-- A variable that is declared has its first contents at the end of the region. -/
theorem grants_declareOne {g : GlobalLayout} {scope : Scope} {decl : Declaration} {d : Declarator}
    (hty : decl.ty ≠ .void) (h : GlobalLayout.declareOne decl g scope d = .ok r) :
    ∃ vs length value, GlobalLayout.Contents scope decl d vs length value ∧
      (Owner.global d.name).extent? (g, scope) = none ∧
      r.1.values = g.values ++ vs.toArray ∧ r.1.casts = g.casts ∧
      ∀ o : Owner, o.extent? r = if o = .global d.name then
        some ⟨g.values.size, vs.length, decl.ty⟩ else o.extent? (g, scope) := by
  obtain ⟨vs, length, value, hc, hd, hr⟩ := GlobalLayout.declareOne_eq_ok h
  obtain ⟨hnew, hscope⟩ := Scope.declare_eq_ok.mp hd
  obtain ⟨hlen, -, -⟩ := GlobalLayout.contents_eq_ok hty hc
  refine ⟨vs, length, value, GlobalLayout.contents_cases hc, ?_, ?_, ?_, fun o => ?_⟩
  · rw [Owner.extent?, hnew, Option.bind_none]
  · rw [hr]
  · rw [hr]
  · cases o with
    | cell ty => rw [if_neg nofun, Owner.extent?, Owner.extent?, hr]
    | global name =>
      rw [Owner.extent?, hscope, Table.get?_insert]
      by_cases hname : name = d.name
      · rw [if_pos hname, if_pos (congrArg _ hname), Option.bind_some, Symbol.extent?,
          Variable.span, hlen]
      · rw [if_neg hname, if_neg fun ho => hname (Owner.global.inj ho), Owner.extent?]

/-- **Laying out an owner** leaves a region that has its range, or adds the range at the end. -/
theorem Lays.grants (h : Lays r o r') : Grants o r r' := by
  cases h with
  | global hty hone =>
    obtain ⟨vs, _, _, -, hnone, hvalues, -, hextents⟩ := grants_declareOne hty hone
    exact .added hnone hvalues hextents
  | @cell g scope ty hty =>
    cases hlook : g.casts.lookup ty with
    | some k =>
      rw [GlobalLayout.castCell_of_lookup_eq_some hlook]
      exact .found (e := ⟨k, 1, ty⟩) (by rw [Owner.extent?, hlook, Option.map_some])
    | none =>
      have hvalues : (g.castCell ty).2.values = g.values ++ [Value.defaultOf ty].toArray := by
        rw [GlobalLayout.castCell_of_lookup_eq_none hlook]
        simp
      refine @Grants.added _ _ (_, _) [.defaultOf ty] ty ?_ hvalues fun o => ?_
      · rw [Owner.extent?, hlook, Option.map_none]
      · cases o with
        | global name => rw [if_neg nofun, Owner.extent?, Owner.extent?]
        | cell t =>
          rw [Owner.extent?, GlobalLayout.lookup_castCell_of_none hlook]
          by_cases ht : t = ty
          · rw [if_pos ht, if_pos (congrArg _ ht), ht]
            rfl
          · rw [if_neg ht, if_neg fun ho => ht (Owner.cell.inj ho), Owner.extent?]

/-- What is laid out stays: no range moves and no value changes. -/
structure Stays (r r' : GlobalLayout × Scope) : Prop where
  extents : ∀ {o : Owner} {e : Extent}, o.extent? r = some e → o.extent? r' = some e
  values : ∀ {k : Nat} {w : Value}, r.1.values[k]? = some w → r'.1.values[k]? = some w

theorem Stays.trans (h : Stays r r₁) (h' : Stays r₁ r') : Stays r r' :=
  ⟨fun he => h'.extents (h.extents he), fun hw => h'.values (h.values hw)⟩

theorem Grants.stays (h : Grants o r r') : Stays r r' := by
  cases h with
  | found _ => exact ⟨id, id⟩
  | added hnone hvalues hextents =>
    refine ⟨fun {o' e} he => ?_, fun {k w} hw => ?_⟩
    · rw [hextents, if_neg, he]
      rintro rfl
      cases hnone.symm.trans he
    · rw [hvalues, Array.getElem?_append_left (Array.getElem?_eq_some_iff.mp hw).1, hw]

theorem LaysAll.stays (h : LaysAll r os r') : Stays r r' := by
  induction h with
  | nil r => exact ⟨id, id⟩
  | cons hone _ ih => exact hone.grants.stays.trans ih

theorem LaysAll.append (h : LaysAll r os r₁) (h' : LaysAll r₁ os' r') :
    LaysAll r (os ++ os') r' := by
  induction h with
  | nil r => exact h'
  | cons hone _ ih => exact .cons hone (ih h')

/-! ## Regions without gaps -/

/-- The owners that were asked for, each where it was asked for first, have the ranges of a region
without gaps, and no other owner has one. -/
structure Settled (asked : List Owner) (r : GlobalLayout × Scope) : Prop where
  sound : r.1.Sound r.2.inner
  tiled : ∃ es : List Extent, asked.eraseDups.map (Owner.extent? r) = es.map some ∧
    Extent.Tile 0 es r.1.values.size
  asked : ∀ {o : Owner} {e : Extent}, o.extent? r = some e → o ∈ asked
  types : (r.1.casts.map Prod.fst).Nodup
  cells : ∀ {ty : Ty} {k : Nat}, (ty, k) ∈ r.1.casts → r.1.values[k]? = some (.defaultOf ty)

theorem settled_empty {scope : Scope}
    (h : ∀ name v, scope.inner.get? name ≠ some (.variable v)) :
    Settled [] (.empty, scope) where
  sound := GlobalLayout.sound_empty h
  tiled := ⟨[], rfl, rfl⟩
  asked {o e} he := by
    cases o with
    | cell ty => cases he
    | global name =>
      obtain ⟨symbol, hsymbol, hextent⟩ := Option.bind_eq_some_iff.mp he
      rcases symbol with v | sig
      · exact absurd hsymbol (h name v)
      · cases hextent
  types := List.nodup_nil
  cells hm := by cases hm

/-- Every owner that was asked for has a range. -/
theorem Settled.exists_extent {asked : List Owner} (h : Settled asked r) (ho : o ∈ asked) :
    ∃ e, o.extent? r = some e := by
  obtain ⟨es, hes, -⟩ := h.tiled
  have hmem : o.extent? r ∈ es.map some := hes ▸ List.mem_map_of_mem (List.mem_eraseDups.mpr ho)
  obtain ⟨e, -, he⟩ := List.mem_map.mp hmem
  exact ⟨e, he.symm⟩

/-- One more owner comes last in the order of the first requests, if it is new. -/
theorem eraseDups_snoc (asked : List Owner) (o : Owner) :
    (asked ++ [o]).eraseDups = asked.eraseDups ++ if o ∈ asked then [] else [o] := by
  rw [List.eraseDups_append]
  by_cases ho : o ∈ asked <;> simp [ho, List.removeAll, List.eraseDups_cons]

theorem Settled.grants {asked : List Owner} (h : Settled asked r) (hg : Grants o r r') :
    (∃ es : List Extent, (asked ++ [o]).eraseDups.map (Owner.extent? r') = es.map some ∧
      Extent.Tile 0 es r'.1.values.size) ∧
    ∀ {o' : Owner} {e : Extent}, o'.extent? r' = some e → o' ∈ asked ++ [o] := by
  rw [eraseDups_snoc]
  -- an owner that has a range keeps it; a new one gets the range at the end
  cases hg with
  | found he =>
    rw [if_pos (h.asked he), List.append_nil]
    exact ⟨h.tiled, fun he => List.mem_append_left _ (h.asked he)⟩
  | @added r' vs ty hnone hvalues hextents =>
    have hnew : o ∉ asked := by
      intro ho
      obtain ⟨e, he⟩ := h.exists_extent ho
      cases hnone.symm.trans he
    obtain ⟨es, hes, htile⟩ := h.tiled
    have hold : asked.eraseDups.map (Owner.extent? r') = asked.eraseDups.map (Owner.extent? r) := by
      refine List.map_congr_left fun o' ho' => ?_
      rw [hextents, if_neg]
      rintro rfl
      exact hnew (List.mem_eraseDups.mp ho')
    refine ⟨⟨es ++ [⟨r.1.values.size, vs.length, ty⟩], ?_, ?_⟩, fun {o' e} he => ?_⟩
    · rw [if_neg hnew, List.map_append, hold, hes, List.map_append, List.map_singleton, hextents,
        if_pos rfl, List.map_singleton]
    · have hsize : r'.1.values.size = r.1.values.size + vs.length := by simp [hvalues]
      rw [hsize]
      exact htile.snoc rfl
    · rw [hextents] at he
      split at he
      next heq => simp [heq]
      next => exact List.mem_append_left _ (h.asked he)

/-- **One more owner**: the ranges have no gap again. -/
theorem Settled.lays {asked : List Owner} (h : Settled asked r) (hone : Lays r o r') :
    Settled (asked ++ [o]) r' := by
  obtain ⟨htiled, hasked⟩ := h.grants hone.grants
  have hstays := hone.grants.stays
  cases hone with
  | global hty hd =>
    obtain ⟨_, _, _, -, -, -, hcasts, -⟩ := grants_declareOne hty hd
    refine ⟨(h.sound.declareOne hty hd).1, htiled, hasked, hcasts ▸ h.types, fun hm => ?_⟩
    rw [hcasts] at hm
    exact hstays.values (h.cells hm)
  | @cell g scope ty hty =>
    have hsound := h.sound.castCell hty
    -- a cell is made only for a type that has none
    cases hlook : g.casts.lookup ty with
    | some k =>
      rw [GlobalLayout.castCell_of_lookup_eq_some hlook] at hsound htiled hasked ⊢
      exact ⟨hsound, htiled, hasked, h.types, h.cells⟩
    | none =>
      rw [GlobalLayout.castCell_of_lookup_eq_none hlook] at hsound htiled hasked hstays ⊢
      refine ⟨hsound, htiled, hasked, ?_, fun {t k} hm => ?_⟩
      · rw [List.map_append, List.nodup_append']
        refine ⟨h.types, List.nodup_singleton _, ?_⟩
        rw [List.map_singleton, List.disjoint_singleton]
        intro hty
        obtain ⟨⟨t, k⟩, hm, rfl⟩ := List.mem_map.mp hty
        simpa using List.lookup_eq_none_iff.mp hlook _ hm
      · rcases List.mem_append.mp hm with hm | hm
        · exact hstays.values (h.cells hm)
        · cases List.mem_singleton.mp hm
          simp

theorem Settled.laysAll {asked : List Owner} (h : Settled asked r) (hall : LaysAll r os r') :
    Settled (asked ++ os) r' := by
  induction hall generalizing asked with
  | nil r => rwa [List.append_nil]
  | cons hone _ ih =>
    rw [← List.singleton_append, ← List.append_assoc]
    exact ih (h.lays hone)

/-- The slots of a range hold values of its type. -/
theorem Settled.typed {asked : List Owner} (h : Settled asked r) {e : Extent} {k : Nat}
    (he : o.extent? r = some e) (hk : e.Covers k) :
    ∃ w, r.1.values[k]? = some w ∧ w.ty = e.ty := by
  have hblock : r.1.Block e.start e.span e.ty := by
    cases o with
    | cell ty =>
      obtain ⟨k, hlook, rfl⟩ := Option.map_eq_some_iff.mp he
      exact h.sound.cell (GlobalLayout.mem_casts_of_lookup hlook)
    | global name =>
      obtain ⟨symbol, hsymbol, hextent⟩ := Option.bind_eq_some_iff.mp he
      rcases symbol with v | sig
      · obtain ⟨offset, hslot, -, hblock⟩ := h.sound.declared hsymbol
        simp only [Symbol.extent?, hslot, Option.some.injEq] at hextent
        rw [← hextent]
        exact hblock
      · cases hextent
  obtain ⟨hle, hlt⟩ := hk
  unfold Extent.stop at hlt
  obtain ⟨w, hw, hty⟩ := hblock (k - e.start) (by omega)
  rw [Nat.add_sub_cancel' hle] at hw
  exact ⟨w, hw, hty⟩

/-- Every variable of the scope was asked for. -/
theorem Settled.mem_of_variable {asked : List Owner} (h : Settled asked r) {name : String}
    {v : Variable} (hv : r.2.inner.get? name = some (.variable v)) : .global name ∈ asked := by
  obtain ⟨offset, hslot, -, -⟩ := h.sound.declared hv
  refine h.asked (e := ⟨offset, v.span, v.ty⟩) ?_
  rw [Owner.extent?, hv, Option.bind_some, Symbol.extent?, hslot]

/-! ## Requests -/

/-- A request to the region: a declaration, or the scratch cell of a type. -/
inductive RegionRequest where
  | declare (decl : Declaration)
  | cell (ty : Ty)

namespace RegionRequest

/-- The owners that a request asks for. -/
def owners : RegionRequest → List Owner
  | .declare decl => decl.declarators.map fun d => .global d.name
  | .cell ty => [.cell ty]

/-- The region and the scope that a request leaves. -/
def serve (r : GlobalLayout × Scope) :
    RegionRequest → Except CompileError (GlobalLayout × Scope)
  | .declare decl => r.1.declare r.2 decl
  | .cell ty => .ok ((r.1.castCell ty).2, r.2)

/-- The region and the scope that requests leave, one after the other. -/
def serveAll (r : GlobalLayout × Scope) (qs : List RegionRequest) :
    Except CompileError (GlobalLayout × Scope) :=
  qs.foldlM serve r

variable {q : RegionRequest} {qs before after : List RegionRequest}

theorem serveAll_append :
    serveAll r (before ++ after) = .ok r' ↔
      ∃ r₁, serveAll r before = .ok r₁ ∧ serveAll r₁ after = .ok r' := by
  rw [serveAll, List.foldlM_append, bind_eq_ok]
  rfl

theorem serveAll_cons :
    serveAll r (q :: qs) = .ok r' ↔ ∃ r₁, serve r q = .ok r₁ ∧ serveAll r₁ qs = .ok r' := by
  rw [serveAll, List.foldlM_cons, bind_eq_ok]
  rfl

end RegionRequest

theorem declareAll_append {decl : Declaration} {ds ds' : List Declarator} {g : GlobalLayout}
    {scope : Scope} (h : GlobalLayout.declareAll decl g scope (ds ++ ds') = .ok r') :
    ∃ r₁, GlobalLayout.declareAll decl g scope ds = .ok r₁ ∧
      GlobalLayout.declareAll decl r₁.1 r₁.2 ds' = .ok r' := by
  induction ds generalizing g scope with
  | nil => exact ⟨(g, scope), rfl, h⟩
  | cons d ds ih =>
    simp only [List.cons_append, GlobalLayout.declareAll, bind_eq_ok] at h ⊢
    obtain ⟨r₁, hone, hrest⟩ := h
    obtain ⟨r₂, hds, hds'⟩ := ih hrest
    exact ⟨r₂, ⟨r₁, hone, hds⟩, hds'⟩

theorem laysAll_of_declareAll {decl : Declaration} {ds : List Declarator} {g : GlobalLayout}
    {scope : Scope} (hty : decl.ty ≠ .void)
    (h : GlobalLayout.declareAll decl g scope ds = .ok r') :
    LaysAll (g, scope) (ds.map fun d => .global d.name) r' := by
  induction ds generalizing g scope with
  | nil =>
    cases h
    exact .nil _
  | cons d ds ih =>
    simp only [GlobalLayout.declareAll, bind_eq_ok] at h
    obtain ⟨r₁, hone, hrest⟩ := h
    exact .cons (.global hty hone) (ih hrest)

open RegionRequest

theorem laysAll_of_serve {q : RegionRequest} (hq : q ≠ .cell .void) (h : q.serve r = .ok r') :
    LaysAll r q.owners r' := by
  cases q with
  | declare decl =>
    obtain ⟨hty, hall⟩ := Compiler.globalsDeclare_eq_ok.mp h
    exact laysAll_of_declareAll hty hall
  | cell ty =>
    cases h
    exact .cons (.cell fun hty => hq (congrArg _ hty)) (.nil _)

/-- **Requests lay out the owners that they ask for**, in their order. -/
theorem laysAll_of_serveAll {qs : List RegionRequest} (hcells : .cell .void ∉ qs)
    (h : serveAll r qs = .ok r') : LaysAll r (qs.flatMap owners) r' := by
  induction qs generalizing r with
  | nil =>
    cases h
    exact .nil _
  | cons q qs ih =>
    rw [List.mem_cons, not_or] at hcells
    obtain ⟨r₁, hone, hrest⟩ := serveAll_cons.mp h
    rw [List.flatMap_cons]
    exact (laysAll_of_serve (Ne.symm hcells.1) hone).append (ih hcells.2 hrest)

/-- What a declarator of a declaration among the requests is given, and still has at the end. -/
theorem declarator_of_serveAll {before after : List RegionRequest} {decl : Declaration}
    {ds ds' : List Declarator} {d : Declarator}
    (hcells : .cell .void ∉ before ++ .declare decl :: after)
    (h : serveAll r (before ++ .declare decl :: after) = .ok r')
    (hd : decl.declarators = ds ++ d :: ds') :
    ∃ r₀ r₁ vs length value, serveAll r before = .ok r₀ ∧
      GlobalLayout.declareAll decl r₀.1 r₀.2 ds = .ok r₁ ∧
      GlobalLayout.Contents r₁.2 decl d vs length value ∧
      (Owner.global d.name).extent? r' = some ⟨r₁.1.values.size, vs.length, decl.ty⟩ ∧
      ∀ (k : Nat) (w : Value), vs[k]? = some w →
        r'.1.values[r₁.1.values.size + k]? = some w := by
  obtain ⟨r₀, hbefore, hrest⟩ := serveAll_append.mp h
  obtain ⟨r₃, hdecl, hafter⟩ := serveAll_cons.mp hrest
  obtain ⟨hty, hall⟩ := Compiler.globalsDeclare_eq_ok.mp hdecl
  rw [hd] at hall
  obtain ⟨r₁, hds, hall⟩ := declareAll_append hall
  simp only [GlobalLayout.declareAll, bind_eq_ok] at hall
  obtain ⟨r₂, hone, hds'⟩ := hall
  obtain ⟨vs, length, value, hc, -, hvalues, -, hextents⟩ := grants_declareOne hty hone
  have hcells' : .cell .void ∉ after := fun hm => hcells (by simp [hm])
  -- what comes later leaves the range and its values alone
  have hstays : Stays r₂ r' :=
    (laysAll_of_declareAll hty hds').stays.trans (laysAll_of_serveAll hcells' hafter).stays
  refine ⟨r₀, r₁, vs, length, value, hbefore, hds, hc, hstays.extents ?_, fun k w hw => ?_⟩
  · rw [hextents, if_pos rfl]
  · refine hstays.values ?_
    rw [hvalues, Array.getElem?_append_right (Nat.le_add_right _ _), Nat.add_sub_cancel_left,
      List.getElem?_toArray, hw]

/-- The cell that a request is handed is the cell of its type at the end. -/
theorem cell_of_serveAll {before after : List RegionRequest} {ty : Ty}
    (hcells : .cell .void ∉ before ++ .cell ty :: after)
    (h : serveAll r (before ++ .cell ty :: after) = .ok r') :
    ∃ r₀, serveAll r before = .ok r₀ ∧ (Owner.cell ty).extent? r' =
      some ⟨(r₀.1.castCell ty).1, 1, ty⟩ := by
  obtain ⟨r₀, hbefore, hrest⟩ := serveAll_append.mp h
  obtain ⟨r₁, hcell, hafter⟩ := serveAll_cons.mp hrest
  cases hcell
  have hcells' : .cell .void ∉ after := fun hm => hcells (by simp [hm])
  refine ⟨r₀, hbefore, (laysAll_of_serveAll hcells' hafter).stays.extents ?_⟩
  rw [Owner.extent?, GlobalLayout.lookup_castCell, Option.map_some]

/-- **The global region after any requests.** Declarations and scratch cells are asked for in any
order, of an empty region with a scope that has no variables. Then the owners, in the order in which
they were first asked for, have ranges that do not overlap and together are the whole region, with
values of their types. All variables and all cells are among them, and a type has one cell at most,
which holds its default value. A declarator has the slots from the end of the region that it found,
with its first contents: the value of its initializer, as it is folded there, in the type of the
variable, and default values without an initializer. The offset of a cell that is handed out is its
range. And no later request moves a range or changes a value. -/
theorem region_layout {scope scope' : Scope} {g : GlobalLayout} {qs : List RegionRequest}
    (hnew : ∀ name v, scope.inner.get? name ≠ some (.variable v)) (hcells : .cell .void ∉ qs)
    (hserve : serveAll (.empty, scope) qs = .ok (g, scope')) :
    (∃ es : List Extent, (qs.flatMap owners).eraseDups.map (Owner.extent? (g, scope')) = es.map some ∧
      es.Pairwise (fun e e' => e.stop ≤ e'.start) ∧
      (∀ k, k < g.values.size ↔ ∃ e ∈ es, e.Covers k) ∧
      ∀ e ∈ es, ∀ k, e.Covers k → ∃ w, g.values[k]? = some w ∧ w.ty = e.ty) ∧
    ((∀ name v, scope'.inner.get? name = some (.variable v) →
        .global name ∈ qs.flatMap owners) ∧
      (∀ ty k, g.casts.lookup ty = some k → .cell ty ∈ qs.flatMap owners) ∧
      (g.casts.map Prod.fst).Nodup ∧
      ∀ ty k, (ty, k) ∈ g.casts → g.values[k]? = some (.defaultOf ty)) ∧
    (∀ before decl after ds d ds', qs = before ++ .declare decl :: after →
      decl.declarators = ds ++ d :: ds' →
      ∃ r₀ r₁ vs length value, serveAll (.empty, scope) before = .ok r₀ ∧
        GlobalLayout.declareAll decl r₀.1 r₀.2 ds = .ok r₁ ∧
        GlobalLayout.Contents r₁.2 decl d vs length value ∧
        (Owner.global d.name).extent? (g, scope') =
          some ⟨r₁.1.values.size, vs.length, decl.ty⟩ ∧
        ∀ (k : Nat) (w : Value), vs[k]? = some w → g.values[r₁.1.values.size + k]? = some w) ∧
    (∀ before ty after, qs = before ++ .cell ty :: after →
      ∃ r₀, serveAll (.empty, scope) before = .ok r₀ ∧
        (Owner.cell ty).extent? (g, scope') = some ⟨(r₀.1.castCell ty).1, 1, ty⟩) ∧
    ∀ before after, qs = before ++ after →
      ∃ r, serveAll (.empty, scope) before = .ok r ∧ Stays r (g, scope') := by
  -- the ranges tile the region after every request, so also after the last one
  have hsettled : Settled ([] ++ qs.flatMap owners) (g, scope') :=
    (settled_empty hnew).laysAll (laysAll_of_serveAll hcells hserve)
  rw [List.nil_append] at hsettled
  obtain ⟨es, hes, htile⟩ := hsettled.tiled
  refine ⟨⟨es, hes, htile.pairwise, fun k => ?_, fun e he k hk => ?_⟩,
    ⟨fun name v hv => hsettled.mem_of_variable hv, fun ty k hk => ?_, hsettled.types,
      fun ty k hm => hsettled.cells hm⟩, ?_, ?_, ?_⟩
  · rw [← htile.covers_iff]
    simp
  · obtain ⟨o, -, ho⟩ := List.mem_map.mp (hes ▸ List.mem_map_of_mem (f := some) he)
    exact hsettled.typed ho hk
  · refine hsettled.asked (e := ⟨k, 1, ty⟩) ?_
    rw [Owner.extent?, hk, Option.map_some]
  · rintro before decl after ds d ds' rfl hd
    exact declarator_of_serveAll hcells hserve hd
  · rintro before ty after rfl
    exact cell_of_serveAll hcells hserve
  · rintro before after rfl
    obtain ⟨r, hbefore, hafter⟩ := serveAll_append.mp hserve
    have hcells' : .cell .void ∉ after := fun hm => hcells (List.mem_append_right _ hm)
    exact ⟨r, hbefore, (laysAll_of_serveAll hcells' hafter).stays⟩

/-- Cells that are asked for before, between and after declarations, one of them twice. -/
def mixedRequests : List RegionRequest :=
  [.cell .double,
    .declare ⟨.int, false, [⟨"a", some (.literal (.int 7) ⟨1, 9⟩), none, ⟨1, 5⟩⟩], ⟨1, 1⟩⟩,
    .declare ⟨.boolean, true, [⟨"b", none, some 2, ⟨2, 9⟩⟩], ⟨2, 1⟩⟩,
    .cell .double, .cell .boolean]

theorem region_layout_mixed :
    ∃ g scope', serveAll (.empty, .root) mixedRequests = .ok (g, scope') ∧
      ∃ es : List Extent, [.cell .double, .global "a", .global "b", .cell .boolean].map
          (Owner.extent? (g, scope')) = es.map some ∧
        es.Pairwise (fun e e' => e.stop ≤ e'.start) ∧
        ∀ k, k < 5 ↔ ∃ e ∈ es, e.Covers k := by
  have hcells : .cell .void ∉ mixedRequests := by simp [mixedRequests]
  have hnew : ∀ name v, Scope.root.inner.get? name ≠ some (.variable v) := by simp [Scope.root]
  have hserve : serveAll (.empty, .root) mixedRequests = .ok (_, _) := rfl
  obtain ⟨⟨es, hes, hpairwise, hcovers, -⟩, -⟩ := region_layout hnew hcells hserve
  exact ⟨_, _, hserve, es, hes, hpairwise, hcovers⟩

end Stepwise
