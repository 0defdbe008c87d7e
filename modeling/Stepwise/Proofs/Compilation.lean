import Mathlib
import Stepwise.Compiler
import Stepwise.Proofs.StmtDiscipline

/-!
# Compiled programs

What is known of an image that the compiler returns: which functions it has, where their code
stands, which names they saw, and that each of their instructions keeps the discipline.

## Main definitions

* `Compiler.translate`: all declarations of a program, before they are linked
* `Definition`: a function with the drafts that its compilation went through
* `Translated`: a run of the compiler over declarations
* `Compilation`: an image with the progress and the definitions that it was linked from

## Main results

* `exists_compilation`: every image comes from a translation
* `Compilation.runs`: every address of a routine has an instruction that keeps the discipline
-/

namespace Stepwise.Table

variable {α : Type}

theorem ofList_append (es : List (String × α)) (e : String × α) :
    ofList (es ++ [e]) = (ofList es).insert e.1 e.2 := by
  simp [ofList]

/-- Entries with different names stay as they are. -/
theorem entries_ofList {es : List (String × α)} (h : (es.map Prod.fst).Nodup) :
    (ofList es).entries = es := by
  induction es using List.reverseRecOn with
  | nil => rfl
  | append_singleton es e ih =>
    rw [List.map_append, List.nodup_append] at h
    have hes := ih h.1
    have hnew : (ofList es).get? e.1 = none := by
      rw [get?_eq_none_iff, hes]
      intro hmem
      exact h.2.2 _ hmem _ (by simp) rfl
    rw [ofList_append, entries_insert_of_get?_eq_none hnew, hes]

theorem mem_of_mem_ofList {es : List (String × α)} {e : String × α} (h : e ∈ (ofList es).entries) :
    e ∈ es := by
  induction es using List.reverseRecOn with
  | nil => cases h
  | append_singleton es first ih =>
    rw [ofList_append, ← get?_eq_some_iff, get?_insert] at h
    split at h
    next hname =>
      have he : e = first := Prod.ext hname (Option.some.inj h).symm
      exact List.mem_append_right _ (List.mem_singleton.mpr he)
    next => exact List.mem_append_left _ (ih (get?_eq_some_iff.mp h))

end Stepwise.Table

namespace Stepwise.Setting

/-- The instruction at an address of a routine keeps the discipline, and the counts go on behind it
unless it is the return at the end. -/
def Runs (S : Setting) (f : Routine) (pc : Nat) : Prop :=
  ∃ i, S.program.code[pc]?.map Instr.bare = some (i.settle S.program.labels f.frame pc).bare ∧
    S.Admits f (f.height pc) (f.slots pc) pc i ∧
    ((i.op = .ret ∧ ¬ f.Holds (pc + 1)) ∨
      f.At (f.height pc + i.rise) (f.slots pc + i.reserves.toNat) (pc + 1))

/-- Code that is laid and admitted runs at each of its addresses. -/
theorem runs_of_admitted {S : Setting} {f : Routine} {h : Int} {r addr k : Nat} {c : Code}
    (hl : Laid S.program f h r addr c) (ha : S.Admitted f h r addr c) (hk : k < c.size) :
    S.Runs f (addr + k) := by
  induction c generalizing h r addr k with
  | nil => exact absurd hk (Nat.not_lt_zero k)
  | cons line c ih =>
    cases line with
    | label name => exact ih hl.2 ha hk
    | instr i =>
      obtain ⟨hat, hi, hrest⟩ := hl
      cases k with
      | zero =>
        refine ⟨i, hi, ?_, .inr ?_⟩
        · rw [Nat.add_zero, hat.height, hat.slots]
          exact ha.1
        · rw [Nat.add_zero, hat.height, hat.slots]
          exact hrest.start
      | succ k =>
        rw [Nat.add_comm k, ← Nat.add_assoc]
        rw [Code.size_cons_instr] at hk
        exact ih hrest ha.2 (by omega)

theorem Fits.declare {S : Setting} {f : Routine} {limit : Nat} {scope scope' : Scope}
    {name : String} {symbol : Symbol} (hs : S.Fits f limit scope)
    (hd : scope.declare name symbol = .ok scope') (hm : S.Means f limit name symbol) :
    S.Fits f limit scope' := by
  intro k sym hsym
  rw [Scope.lookup?_of_declare hd] at hsym
  split at hsym
  next hk =>
    cases hsym
    exact hk ▸ hm
  next => exact hs hsym

end Stepwise.Setting

namespace Stepwise.Compiler

open Lowering

/-! ## Declarations -/

/-- A function with what its compilation went through: the scope and the global region that it
started with, the drafts before and after its body, and its code. -/
structure Definition where
  source : Function
  scope : Scope
  globals : GlobalLayout
  start : Draft
  body : Code
  finish : Draft
  code : Code

namespace Definition

/-- The code of a function before its variables have addresses. -/
def draft (d : Definition) : Code := functionCode d.source d.body

/-- The compiled function. -/
def function (d : Definition) : CompiledFunction :=
  ⟨d.source.name, d.source.ret, d.code, d.finish.frame.entries⟩

/-- The number of parameters. -/
def argc (d : Definition) : Nat := (namedParams d.source.parameters).length

/-- The entry of the function in the symbol map, if its code starts at an address. -/
def entryAt (d : Definition) (addr : Nat) : CodeEntry :=
  ⟨addr, d.draft.size, d.source.ret, d.finish.frame.entries⟩

/-- The function at an address. -/
def routine (d : Definition) (entry : Nat) : Routine := ⟨d.draft, d.finish.frame, entry, d.argc⟩

/-- The parts belong together. -/
structure Compiled (d : Definition) : Prop where
  bound : Bound (.start d.scope d.globals) (namedParams d.source.parameters) d.start
  lowered : lowerBody ⟨d.source.name, d.source.ret, none, false⟩ d.source.body d.start =
    .ok (d.body, d.finish)
  resolved : resolveCode d.finish.frame d.source.name d.draft = .ok d.code

end Definition

/-- Declarations were compiled one after the other. -/
inductive Translated : Progress → List Stmt → Progress → List Definition → Prop
  | nil (p : Progress) : Translated p [] p []
  | declare {p p' : Progress} {decl : Declaration} {rest : List Stmt} {globals : GlobalLayout}
    {scope : Scope} {ds : List Definition} : p.globals.declare p.scope decl = .ok (globals, scope) →
    Translated ⟨scope, globals, p.functions⟩ rest p' ds →
    Translated p (.declare decl :: rest) p' ds
  | function {p p' : Progress} {s : Stmt} {rest : List Stmt} {d : Definition}
    {ds : List Definition} : s.function? = some d.source → d.scope = p.scope →
    d.globals = p.globals → d.Compiled →
    Translated ⟨p.scope, d.finish.supply.globals, p.functions ++ [d.function]⟩ rest p' ds →
    Translated p (s :: rest) p' (d :: ds)

variable {p p' : Progress} {stmts : List Stmt} {hosts : List HostDecl} {program : Program}
  {s s' scope scope' : Scope} {decl : Declaration} {g : GlobalLayout} {d d' : Draft}
  {ps : List (Ty × String)} {ds : List Definition} {es : List (String × Symbol)} {addr : Nat}
  {r : Routine}

theorem translated_of_foldlM (h : stmts.foldlM compileStmt p = .ok p') :
    ∃ ds, Translated p stmts p' ds := by
  induction stmts generalizing p with
  | nil =>
    cases h
    exact ⟨[], .nil _⟩
  | cons s rest ih =>
    rw [List.foldlM_cons, bind_eq_ok] at h
    obtain ⟨p₁, hs, hr⟩ := h
    obtain ⟨ds, hds⟩ := ih hr
    unfold compileStmt at hs
    split at hs
    · simp only [bind_eq_ok, pure_eq_ok] at hs
      obtain ⟨⟨globals, scope⟩, hd, rfl⟩ := hs
      exact ⟨ds, .declare hd hds⟩
    · split at hs
      next f hf =>
        simp only [bind_eq_ok, pure_eq_ok] at hs
        obtain ⟨⟨c, globals⟩, hc, rfl⟩ := hs
        obtain ⟨d, body, d', code, hbound, hbody, hcode, rfl, rfl⟩ := compileFunction_eq_ok hc
        let definition : Definition := ⟨f, p.scope, p.globals, d, body, d', code⟩
        exact ⟨definition :: ds, .function hf rfl rfl ⟨hbound, hbody, hcode⟩ hds⟩
      · simp [at_ne_ok] at hs

/-- All declarations of a program, before they are linked. -/
def translate (hosts : List HostDecl) (program : Program) : Except CompileError Progress := do
  let scope ← signatures hosts program
  program.statements.foldlM compileStmt ⟨scope, .empty, []⟩

theorem compile_eq_ok {image : Image} :
    compile hosts program = .ok image ↔
      ∃ p, translate hosts program = .ok p ∧ link p = .ok image := by
  simp only [compile, translate, bind_eq_ok, liftInternal_eq_ok]
  constructor
  · rintro ⟨scope, hs, p, hp, hl⟩
    exact ⟨p, ⟨scope, hs, hp⟩, hl⟩
  · rintro ⟨p, ⟨scope, hs, hp⟩, hl⟩
    exact ⟨scope, hs, p, hp, hl⟩

/-! ## What compiling keeps -/

/-- A scope with more variables. -/
structure Widens (s s' : Scope) : Prop where
  outer : s'.outer = s.outer
  keep : ∀ {name symbol}, s.inner.get? name = some symbol → s'.inner.get? name = some symbol
  functions : ∀ {name sig}, s'.inner.get? name = some (.function sig) →
    s.inner.get? name = some (.function sig)

theorem Widens.refl (s : Scope) : Widens s s := ⟨rfl, id, id⟩

theorem Widens.trans {s'' : Scope} (h : Widens s s') (h' : Widens s' s'') : Widens s s'' :=
  ⟨h'.outer.trans h.outer, fun hs => h'.keep (h.keep hs), fun hf => h.functions (h'.functions hf)⟩

theorem widens_of_declare {name : String} {v : Variable}
    (h : s.declare name (.variable v) = .ok s') : Widens s s' := by
  obtain ⟨hnew, rfl⟩ := Scope.declare_eq_ok.mp h
  refine ⟨rfl, fun {k symbol} hk => ?_, fun {k sig} hk => ?_⟩
  · have hne : k ≠ name := by
      rintro rfl
      cases hnew.symm.trans hk
    rw [Table.get?_insert_of_ne _ hne, hk]
  · rw [Table.get?_insert] at hk
    split at hk
    · cases hk
    · exact hk

theorem sound_of_declareAll {drs : List Declarator} {g' : GlobalLayout} (hty : decl.ty ≠ .void)
    (hs : g.Sound scope.inner) (h : GlobalLayout.declareAll decl g scope drs = .ok (g', scope')) :
    g'.Sound scope'.inner ∧ g.Extends g' ∧ Widens scope scope' := by
  induction drs generalizing g scope with
  | nil =>
    cases h
    exact ⟨hs, .refl _, .refl _⟩
  | cons dr rest ih =>
    simp only [GlobalLayout.declareAll, bind_eq_ok] at h
    obtain ⟨⟨g₁, scope₁⟩, hone, hrest⟩ := h
    obtain ⟨hs₁, hx₁⟩ := hs.declareOne hty hone
    obtain ⟨_, _, _, -, hd, -⟩ := GlobalLayout.declareOne_eq_ok hone
    obtain ⟨hs', hx', hw'⟩ := ih hs₁ hrest
    exact ⟨hs', hx₁.trans hx', (widens_of_declare hd).trans hw'⟩

theorem globalsDeclare_eq_ok {r : GlobalLayout × Scope} :
    g.declare scope decl = .ok r ↔
      decl.ty ≠ .void ∧ GlobalLayout.declareAll decl g scope decl.declarators = .ok r := by
  unfold GlobalLayout.declare
  split
  next h => simp [at_ne_ok, h]
  next h => simp [h]

/-- Parameters change only the frame and the scope. -/
theorem bound_unchanged (h : Bound d ps d') :
    d'.supply = d.supply ∧ d'.reserved = d.reserved ∧ d'.frame.next = d.frame.next ∧
      d'.frame.params = d.frame.params + ps.length := by
  induction h with
  | nil => exact ⟨rfl, rfl, rfl, rfl⟩
  | cons _ _ ih =>
    obtain ⟨hs, hr, hn, hp⟩ := ih
    refine ⟨hs, hr, hn, ?_⟩
    rw [hp, List.length_cons]
    simp only [FrameLayout.addParam]
    omega

theorem belowLink_of_bound (h : Bound d ps d') :
    d'.frame.entries.belowLink = d.frame.entries.belowLink + ps.length := by
  induction h with
  | nil => rfl
  | cons _ _ ih =>
    rw [ih, FrameLayout.belowLink_addParam, List.length_cons]
    omega

theorem bound_frame (h : Bound d ps d') :
    d.frame.Extends d'.frame ∧ (d.frame.Sound → d'.frame.Sound) := by
  induction h with
  | nil => exact ⟨.refl _, id⟩
  | cons _ _ ih =>
    exact ⟨(FrameLayout.extends_addParam _ _ _).trans ih.1, fun hs => ih.2 (hs.addParam _ _)⟩

/-- Parameters are in the frame, below the link slot. -/
theorem fits_of_bound {S : Setting} {f : Routine} {limit : Nat} (h : Bound d ps d')
    (hs : S.Fits f limit d.scope) (hx : d'.frame.Extends f.frame)
    (hargc : d'.frame.params ≤ f.argc) : S.Fits f limit d'.scope := by
  induction h with
  | nil => exact hs
  | @cons d d' ty name rest scope hd hrest ih =>
    have hparams := (bound_unchanged hrest).2.2.2
    refine ih (hs.declare hd ⟨⟨-((d.frame.params : Int) + 1), ty, none⟩, ?_, ?_, ?_⟩) hx hargc
    · refine hx.entries ((bound_frame hrest).1.entries ?_)
      simp [FrameLayout.addParam]
    · simp only [FrameLayout.addParam] at hparams ⊢
      omega
    · simp only
      omega

namespace Definition.Compiled

variable {d : Definition}

theorem start_reserved (h : d.Compiled) : d.start.reserved = [] := (bound_unchanged h.bound).2.1

theorem start_next (h : d.Compiled) : d.start.frame.next = 1 := (bound_unchanged h.bound).2.2.1

theorem start_params (h : d.Compiled) : d.start.frame.params = d.argc := by
  rw [(bound_unchanged h.bound).2.2.2, argc]
  exact Nat.zero_add _

/-- The body adds variables to the frame and draws from the supply. -/
theorem grows (h : d.Compiled) : ∃ slots, d.start.Grows d.finish slots :=
  Setting.grows_of_lowerBody rfl h.start_reserved h.lowered

theorem draws (h : d.Compiled) : Draws ⟨0, d.globals⟩ d.finish.supply := by
  obtain ⟨_, hg⟩ := h.grows
  have hs : d.start.supply = ⟨0, d.globals⟩ := (bound_unchanged h.bound).1
  exact hs ▸ hg.supply

/-- The parameters of a function are the variables below its link slot. -/
theorem belowLink_finish (h : d.Compiled) : d.finish.frame.entries.belowLink = d.argc := by
  obtain ⟨_, hg⟩ := h.grows
  rw [hg.below, belowLink_of_bound h.bound, argc]
  exact Nat.zero_add _

/-- The variables of a function have slots of their own. -/
theorem frame_sound (h : d.Compiled) : d.finish.frame.Sound := by
  obtain ⟨_, hg⟩ := h.grows
  exact hg.sound ((bound_frame h.bound).2 FrameLayout.sound_empty)

end Definition.Compiled

/-- **What a translation keeps**: the global region stays sound and grows, names keep their
meanings, and the functions follow each other. -/
theorem Translated.grows (h : Translated p stmts p' ds) (hs : p.globals.Sound p.scope.inner) :
    p'.globals.Sound p'.scope.inner ∧ p.globals.Extends p'.globals ∧ Widens p.scope p'.scope := by
  induction h with
  | nil p => exact ⟨hs, .refl _, .refl _⟩
  | declare hd _ ih =>
    obtain ⟨hty, hall⟩ := globalsDeclare_eq_ok.mp hd
    obtain ⟨hs₁, hx₁, hw₁⟩ := sound_of_declareAll hty hs hall
    obtain ⟨hs', hx', hw'⟩ := ih hs₁
    exact ⟨hs', hx₁.trans hx', hw₁.trans hw'⟩
  | @function p p' s rest d ds _ hscope hglobals hd _ ih =>
    have hs₁ : d.finish.supply.globals.Sound p.scope.inner := hd.draws.sound (hglobals ▸ hs)
    obtain ⟨hs', hx', hw'⟩ := ih hs₁
    have hx₁ := hd.draws.extends
    rw [hglobals] at hx₁
    exact ⟨hs', hx₁.trans hx', hw'⟩

theorem Translated.functions (h : Translated p stmts p' ds) :
    p'.functions = p.functions ++ ds.map Definition.function ∧
      ds.map Definition.source = stmts.filterMap Stmt.function? := by
  induction h with
  | nil p => simp
  | declare _ _ ih =>
    refine ⟨ih.1, ?_⟩
    rw [List.filterMap_cons_none rfl]
    exact ih.2
  | function hf _ _ _ _ ih =>
    refine ⟨by rw [ih.1]; simp, ?_⟩
    rw [List.filterMap_cons_some hf, List.map_cons, ih.2]

theorem declared_of_declareAll {drs : List Declarator} {g' : GlobalLayout} (hty : decl.ty ≠ .void)
    (hs : g.Sound scope.inner) (h : GlobalLayout.declareAll decl g scope drs = .ok (g', scope'))
    {dr : Declarator} (hdr : dr ∈ drs) :
    ∃ v, scope'.inner.get? dr.name = some (.variable v) ∧ v.ty = decl.ty ∧
      v.span = decl.span dr := by
  induction drs generalizing g scope with
  | nil => cases hdr
  | cons first rest ih =>
    simp only [GlobalLayout.declareAll, bind_eq_ok] at h
    obtain ⟨⟨g₁, scope₁⟩, hone, hrest⟩ := h
    obtain ⟨hs₁, -⟩ := hs.declareOne hty hone
    rcases List.mem_cons.mp hdr with rfl | hdr
    · obtain ⟨vs, length, value, hc, hd, -⟩ := GlobalLayout.declareOne_eq_ok hone
      obtain ⟨-, rfl⟩ := Scope.declare_eq_ok.mp hd
      obtain ⟨-, -, hw⟩ := sound_of_declareAll hty hs₁ hrest
      refine ⟨_, hw.keep (Table.get?_insert_self _ _ _), rfl, ?_⟩
      exact GlobalLayout.span_of_contents hc
    · exact ih hs₁ hrest hdr

/-- Every global declaration of the program is in scope at the end. -/
theorem Translated.declared (h : Translated p stmts p' ds) (hs : p.globals.Sound p.scope.inner)
    (hdecl : .declare decl ∈ stmts) {dr : Declarator} (hdr : dr ∈ decl.declarators) :
    ∃ v, p'.scope.inner.get? dr.name = some (.variable v) ∧ v.ty = decl.ty ∧
      v.span = decl.span dr := by
  induction h with
  | nil p => cases hdecl
  | declare hd hrest ih =>
    obtain ⟨hty, hall⟩ := globalsDeclare_eq_ok.mp hd
    obtain ⟨hs₁, -, -⟩ := sound_of_declareAll hty hs hall
    rcases List.mem_cons.mp hdecl with hfirst | hlater
    · cases hfirst
      obtain ⟨v, hv, hspec⟩ := declared_of_declareAll hty hs hall hdr
      exact ⟨v, (hrest.grows hs₁).2.2.keep hv, hspec⟩
    · exact ih hs₁ hlater
  | @function p p' s rest d ds hf hscope hglobals hd hrest ih =>
    have hs₁ : d.finish.supply.globals.Sound p.scope.inner := hd.draws.sound (hglobals ▸ hs)
    rcases List.mem_cons.mp hdecl with hfirst | hlater
    · rw [← hfirst] at hf
      cases hf
    · exact ih hs₁ hlater

/-- What each definition saw is still there at the end. -/
theorem Translated.mem (h : Translated p stmts p' ds) (hs : p.globals.Sound p.scope.inner)
    {d : Definition} (hd : d ∈ ds) :
    d.Compiled ∧ Widens p.scope d.scope ∧ Widens d.scope p'.scope ∧
      d.globals.Sound d.scope.inner ∧ d.finish.supply.globals.Extends p'.globals := by
  induction h with
  | nil p => cases hd
  | declare hdecl _ ih =>
    obtain ⟨hty, hall⟩ := globalsDeclare_eq_ok.mp hdecl
    obtain ⟨hs₁, -, hw₁⟩ := sound_of_declareAll hty hs hall
    obtain ⟨hc, hw, hrest⟩ := ih hs₁ hd
    exact ⟨hc, hw₁.trans hw, hrest⟩
  | @function p p' s rest e ds _ hscope hglobals he hrest ih =>
    have hs₁ : e.finish.supply.globals.Sound p.scope.inner :=
      he.draws.sound (hglobals ▸ hs)
    obtain ⟨-, hx', hw'⟩ := hrest.grows hs₁
    rcases List.mem_cons.mp hd with rfl | hd
    · refine ⟨he, ?_, ?_, ?_, hx'⟩
      · rw [hscope]
        exact .refl _
      · rw [hscope]
        exact hw'
      · rw [hscope, hglobals]
        exact hs
    · exact ih hs₁ hd

/-! ## Signatures -/

/-- Names were declared one after the other. -/
inductive Adds : Scope → List (String × Symbol) → Scope → Prop
  | nil (s : Scope) : Adds s [] s
  | cons {s s₁ s' : Scope} {name : String} {symbol : Symbol} {rest : List (String × Symbol)} :
    s.declare name symbol = .ok s₁ → Adds s₁ rest s' → Adds s ((name, symbol) :: rest) s'

theorem Adds.outer (h : Adds s es s') : s'.outer = s.outer := by
  induction h with
  | nil => rfl
  | cons hd _ ih =>
    obtain ⟨-, rfl⟩ := Scope.declare_eq_ok.mp hd
    exact ih

/-- The names afterwards are those before and the new ones, all different. -/
theorem Adds.names (h : Adds s es s') :
    (es.map Prod.fst).Nodup ∧ (∀ e ∈ es, s.inner.get? e.1 = none) ∧
      ∀ name symbol, s'.inner.get? name = some symbol ↔
        s.inner.get? name = some symbol ∨ (name, symbol) ∈ es := by
  induction h with
  | nil => simp
  | @cons s s₁ s' name symbol rest hd _ ih =>
    obtain ⟨hnew, rfl⟩ := Scope.declare_eq_ok.mp hd
    obtain ⟨hnodup, hfree, hget⟩ := ih
    simp only [Table.get?_insert] at hfree hget
    -- a later name is free in a scope that has this one already, so it is another name
    have hfresh : ∀ e ∈ rest, e.1 ≠ name ∧ s.inner.get? e.1 = none := by
      intro e he
      have hfe := hfree e he
      split at hfe
      · cases hfe
      next hne => exact ⟨hne, hfe⟩
    refine ⟨?_, ?_, fun k sym => ?_⟩
    · rw [List.map_cons, List.nodup_cons]
      refine ⟨fun hmem => ?_, hnodup⟩
      obtain ⟨e, he, hname⟩ := List.mem_map.mp hmem
      exact (hfresh e he).1 hname
    · rintro e he
      rcases List.mem_cons.mp he with rfl | he
      · exact hnew
      · exact (hfresh e he).2
    · rw [hget, List.mem_cons, Prod.mk.injEq]
      by_cases hk : k = name
      · subst hk
        rw [if_pos rfl, hnew]
        simp [eq_comm]
      · simp [hk]

/-- What the name of a host function means. -/
def hostSymbol (d : HostDecl) : String × Symbol :=
  (d.name, .function ⟨d.params, d.ret, true, d.variadic⟩)

theorem adds_of_declareHosts {ds : List HostDecl} (h : declareHosts scope ds = .ok scope') :
    Adds scope (ds.map hostSymbol) scope' := by
  induction ds generalizing scope with
  | nil =>
    cases h
    exact .nil _
  | cons d rest ih =>
    simp only [declareHosts, bind_eq_ok, locate_eq_ok] at h
    obtain ⟨scope₁, hd, hr⟩ := h
    exact .cons hd (ih hr)

/-- A name means a function of the program. -/
def Names (f : Function) (e : String × Symbol) : Prop :=
  e.1 = f.name ∧ ∃ params, parameterTypes f = .ok params ∧
    e.2 = .function ⟨params, f.ret, false, false⟩

theorem adds_of_declareFunctions (h : declareFunctions scope stmts = .ok scope') :
    ∃ es, Adds scope es scope' ∧ List.Forall₂ Names (stmts.filterMap Stmt.function?) es := by
  induction stmts generalizing scope with
  | nil =>
    cases h
    exact ⟨[], .nil _, .nil⟩
  | cons s rest ih =>
    simp only [declareFunctions] at h
    split at h
    next hf =>
      rw [List.filterMap_cons_none hf]
      exact ih h
    next f hf =>
      simp only [bind_eq_ok, locate_eq_ok] at h
      obtain ⟨params, hp, scope₁, hd, hr⟩ := h
      obtain ⟨es, hadds, hes⟩ := ih hr
      rw [List.filterMap_cons_some hf]
      exact ⟨_ :: es, .cons hd hadds, .cons ⟨rfl, params, hp, rfl⟩ hes⟩

theorem Names.unique {f : Function} {e e' : String × Symbol} (h : Names f e) (h' : Names f e') :
    e = e' := by
  obtain ⟨hname, params, hp, hsym⟩ := h
  obtain ⟨hname', params', hp', hsym'⟩ := h'
  cases hp.symm.trans hp'
  exact Prod.ext (hname.trans hname'.symm) (hsym.trans hsym'.symm)

theorem names_of_forall₂ {fs : List Function} (h : List.Forall₂ Names fs es) :
    fs.map Function.name = es.map Prod.fst ∧ (∀ e, e ∈ es ↔ ∃ f ∈ fs, Names f e) ∧
      ∀ f ∈ fs, ∃ e, Names f e := by
  induction h with
  | nil => simp
  | @cons f e fs es hfe _ ih =>
    obtain ⟨hnames, hmem, hall⟩ := ih
    refine ⟨by rw [List.map_cons, List.map_cons, hnames, hfe.1], fun e' => ?_,
      List.forall_mem_cons.mpr ⟨⟨e, hfe⟩, hall⟩⟩
    rw [List.mem_cons, hmem]
    constructor
    · rintro (rfl | ⟨g, hg, hn⟩)
      · exact ⟨f, List.mem_cons_self, hfe⟩
      · exact ⟨g, List.mem_cons_of_mem _ hg, hn⟩
    · rintro ⟨g, hg, hn⟩
      rcases List.mem_cons.mp hg with rfl | hg
      · exact .inl (hn.unique hfe)
      · exact .inr ⟨g, hg, hn⟩

/-- The functions of a program, in order. -/
def functionsOf (program : Program) : List Function := program.statements.filterMap Stmt.function?

/-- **The names that all functions see**: host functions and the functions of the program, which
have different names. -/
structure Signed (hosts : List HostDecl) (program : Program) (scope : Scope) : Prop where
  outer : scope.outer = []
  nodup : ((functionsOf program).map Function.name).Nodup
  named : ∀ f ∈ functionsOf program, ∃ e, Names f e
  get?_iff : ∀ name symbol, scope.inner.get? name = some symbol ↔
    (∃ d ∈ (hostTable hosts).entries.map Prod.snd, hostSymbol d = (name, symbol)) ∨
      ∃ f ∈ functionsOf program, Names f (name, symbol)

theorem signed_of_signatures (h : signatures hosts program = .ok scope) :
    Signed hosts program scope := by
  simp only [signatures, bind_eq_ok] at h
  obtain ⟨scope₁, hh, hf⟩ := h
  have hhosts := adds_of_declareHosts hh
  obtain ⟨es, hfuns, hes⟩ := adds_of_declareFunctions hf
  obtain ⟨-, -, hget₁⟩ := hhosts.names
  obtain ⟨hnodup, -, hget⟩ := hfuns.names
  obtain ⟨hnames, hmem, hall⟩ := names_of_forall₂ hes
  refine ⟨by rw [hfuns.outer, hhosts.outer]; rfl, ?_, hall, fun name symbol => ?_⟩
  · rw [functionsOf, hnames]
    exact hnodup
  · have hroot : Scope.root.inner.get? name = (none : Option Symbol) := rfl
    rw [hget, hget₁, hmem, hroot, List.mem_map, functionsOf]
    simp only [reduceCtorEq, false_or]

/-- At the start, names stand for functions. -/
theorem Signed.not_variable (h : Signed hosts program scope) (name : String) (v : Variable) :
    scope.inner.get? name ≠ some (.variable v) := by
  intro hv
  rcases (h.get?_iff _ _).mp hv with ⟨d, -, hd⟩ | ⟨f, -, -, params, -, hsym⟩
  · simp [hostSymbol] at hd
  · cases hsym

/-! ## Linked programs -/

/-- The code of a program before it is assembled. -/
def programCode (p : Progress) : Code :=
  stub p.scope ++ p.functions.flatMap (·.code) ++ [.label haltLabel]

/-- An image with what its compilation went through. -/
structure Compilation (hosts : List HostDecl) (program : Program) (image : Image) where
  scope : Scope
  progress : Progress
  definitions : List Definition
  labels : Table Nat
  signed : Signed hosts program scope
  translated : Translated ⟨scope, .empty, []⟩ program.statements progress definitions
  collected : labelAddresses (programCode progress) = .ok labels
  linked : linkFrom labels 0 (programCode progress).instrs = .ok image.code.toList
  globals : image.globals = progress.globals.values
  symbols : image.symbols =
    ⟨.ofList (codeEntries (stub progress.scope).size progress.functions), progress.globals.entries⟩

/-- **Every image comes from a translation that was linked.** -/
theorem exists_compilation {image : Image} (h : compile hosts program = .ok image) :
    ∃ c : Compilation hosts program image, translate hosts program = .ok c.progress := by
  obtain ⟨p, hp, hl⟩ := compile_eq_ok.mp h
  have hp' := hp
  simp only [translate, bind_eq_ok] at hp'
  obtain ⟨scope, hs, hfold⟩ := hp'
  obtain ⟨ds, hds⟩ := translated_of_foldlM hfold
  simp only [link, assemble, bind_eq_ok, pure_eq_ok] at hl
  obtain ⟨instrs, ⟨labels, hlabels, hlink⟩, -, -, rfl⟩ := hl
  exact ⟨⟨scope, p, ds, labels, signed_of_signatures hs, hds, hlabels, hlink, rfl, rfl⟩, hp⟩

theorem size_of_resolveCode {frame : FrameLayout} {fn : String} {draft code : Code}
    (h : resolveCode frame fn draft = .ok code) : code.size = draft.size := by
  induction draft generalizing code with
  | nil =>
    cases h
    rfl
  | cons line draft ih =>
    cases line with
    | label name =>
      simp only [resolveCode, bind_eq_ok, pure_eq_ok] at h
      obtain ⟨rest, hrest, rfl⟩ := h
      rw [Code.size_cons_label, Code.size_cons_label, ih hrest]
    | instr i =>
      simp only [resolveCode, bind_eq_ok, pure_eq_ok] at h
      obtain ⟨_, -, rest, hrest, rfl⟩ := h
      rw [Code.size_cons_instr, Code.size_cons_instr, ih hrest]

theorem Definition.Compiled.size_code {d : Definition} (h : d.Compiled) :
    d.code.size = d.draft.size := size_of_resolveCode h.resolved

/-- The routines of functions that follow each other from an address on. -/
def routinesFrom (addr : Nat) : List Definition → List Routine
  | [] => []
  | d :: rest => d.routine addr :: routinesFrom (addr + d.draft.size) rest

theorem exists_of_mem_routinesFrom (h : r ∈ routinesFrom addr ds) :
    addr ≤ r.entry ∧ ∃ d ∈ ds, r = d.routine r.entry := by
  induction ds generalizing addr with
  | nil => cases h
  | cons d rest ih =>
    rcases List.mem_cons.mp h with rfl | h
    · exact ⟨le_rfl, d, List.mem_cons_self, rfl⟩
    · obtain ⟨hle, e, he, hr⟩ := ih h
      exact ⟨by omega, e, List.mem_cons_of_mem _ he, hr⟩

theorem exists_routine_of_mem {d : Definition} (h : d ∈ ds) :
    ∃ entry, d.routine entry ∈ routinesFrom addr ds := by
  induction ds generalizing addr with
  | nil => cases h
  | cons e rest ih =>
    rcases List.mem_cons.mp h with rfl | h
    · exact ⟨addr, List.mem_cons_self⟩
    · obtain ⟨entry, hmem⟩ := @ih (addr + e.draft.size) h
      exact ⟨entry, List.mem_cons_of_mem _ hmem⟩

theorem keys_codeEntries {fs : List CompiledFunction} :
    (codeEntries addr fs).map Prod.fst = fs.map CompiledFunction.name := by
  induction fs generalizing addr with
  | nil => rfl
  | cons f rest ih => rw [codeEntries, List.map_cons, List.map_cons, ih]

/-- The entries of the symbol map are those of the routines. -/
theorem routine_of_mem_codeEntries (hds : ∀ d ∈ ds, d.Compiled) {name : String} {e : CodeEntry}
    (h : (name, e) ∈ codeEntries addr (ds.map Definition.function)) :
    ∃ d ∈ ds, d.source.name = name ∧ e = d.entryAt e.addr ∧
      d.routine e.addr ∈ routinesFrom addr ds := by
  induction ds generalizing addr with
  | nil => cases h
  | cons d rest ih =>
    have hsize : d.function.code.size = d.draft.size := (hds d List.mem_cons_self).size_code
    rw [List.map_cons, codeEntries, hsize] at h
    rcases List.mem_cons.mp h with h | h
    · cases h
      exact ⟨d, List.mem_cons_self, rfl, rfl, List.mem_cons_self⟩
    · obtain ⟨d', hd', hname, he, hr⟩ := ih (fun e he => hds e (List.mem_cons_of_mem _ he)) h
      exact ⟨d', List.mem_cons_of_mem _ hd', hname, he, List.mem_cons_of_mem _ hr⟩

theorem mem_codeEntries_of_routine (hds : ∀ d ∈ ds, d.Compiled) (h : r ∈ routinesFrom addr ds) :
    ∃ d ∈ ds, r = d.routine r.entry ∧
      (d.source.name, d.entryAt r.entry) ∈ codeEntries addr (ds.map Definition.function) := by
  induction ds generalizing addr with
  | nil => cases h
  | cons d rest ih =>
    have hsize : d.function.code.size = d.draft.size := (hds d List.mem_cons_self).size_code
    rw [List.map_cons, codeEntries, hsize]
    rcases List.mem_cons.mp h with rfl | h
    · exact ⟨d, List.mem_cons_self, rfl, List.mem_cons_self⟩
    · obtain ⟨d', hd', hr, hmem⟩ := ih (fun e he => hds e (List.mem_cons_of_mem _ he)) h
      exact ⟨d', List.mem_cons_of_mem _ hd', hr, List.mem_cons_of_mem _ hmem⟩

/-- No two routines share an address. -/
theorem routine_unique {pc : Nat} {r' : Routine} (h : r ∈ routinesFrom addr ds)
    (h' : r' ∈ routinesFrom addr ds) (hpc : r.Holds pc) (hpc' : r'.Holds pc) : r = r' := by
  induction ds generalizing addr with
  | nil => cases h
  | cons d rest ih =>
    -- the routines after the first one start where it ends
    have hafter {r : Routine} (hr : r ∈ routinesFrom (addr + d.draft.size) rest) :
        addr + d.draft.size ≤ r.entry := (exists_of_mem_routinesFrom hr).1
    have hfirst (hr : (d.routine addr).Holds pc) : pc < addr + d.draft.size := hr.2
    rcases List.mem_cons.mp h with rfl | h <;> rcases List.mem_cons.mp h' with rfl | h'
    · rfl
    · have h₁ := hafter h'
      have h₂ := hfirst hpc
      have h₃ := hpc'.1
      omega
    · have h₁ := hafter h
      have h₂ := hfirst hpc'
      have h₃ := hpc.1
      omega
    · exact ih h h'

/-- Assembly places every routine, and every address between the first and the last one lies in a
routine. -/
theorem placed_routines {labels : Table Nat} {instrs : List Instr} {full pre post : Code}
    (hl : labelAddresses full = .ok labels) (hi : linkFrom labels 0 full.instrs = .ok instrs)
    (hds : ∀ d ∈ ds, d.Compiled)
    (hf : full = pre ++ ((ds.map Definition.function).flatMap (·.code) ++ post)) :
    (∀ r ∈ routinesFrom pre.size ds, Placed ⟨instrs.toArray, labels⟩ r.frame r.entry r.code ∧
      r.entry + r.code.size + post.size ≤ full.size) ∧
    ∀ pc, pre.size ≤ pc → pc + post.size < full.size →
      ∃ r ∈ routinesFrom pre.size ds, r.Holds pc := by
  -- the code in front grows by one function at a time
  induction ds generalizing pre with
  | nil =>
    refine ⟨by simp [routinesFrom], fun pc h₁ h₂ => ?_⟩
    simp only [hf, List.map_nil, List.flatMap_nil, List.nil_append, Code.size_append] at h₂
    omega
  | cons d rest ih =>
    have hd := hds d List.mem_cons_self
    simp only [List.map_cons, List.flatMap_cons] at hf
    have hf' : full = (pre ++ d.code) ++
        ((rest.map Definition.function).flatMap (·.code) ++ post) := by
      rw [hf]
      simp [Definition.function]
    have hplaced : Placed ⟨instrs.toArray, labels⟩ d.finish.frame pre.size d.draft :=
      placed_of_assemble hl hi (by rw [hf]; simp [Definition.function]; rfl) hd.resolved
    obtain ⟨hrest, hcover⟩ := ih (fun e he => hds e (List.mem_cons_of_mem _ he)) hf'
    rw [Code.size_append, hd.size_code] at hrest hcover
    have hsize : pre.size + d.draft.size + post.size ≤ full.size := by
      rw [hf', Code.size_append, Code.size_append, Code.size_append, hd.size_code]
      omega
    refine ⟨fun r hr => ?_, fun pc h₁ h₂ => ?_⟩
    · rcases List.mem_cons.mp hr with rfl | hr
      · exact ⟨hplaced, hsize⟩
      · exact hrest r hr
    · by_cases hpc : pc < pre.size + d.draft.size
      · exact ⟨_, List.mem_cons_self, h₁, hpc⟩
      · obtain ⟨r, hr, hpc'⟩ := hcover pc (by omega) h₂
        exact ⟨r, List.mem_cons_of_mem _ hr, hpc'⟩

namespace Compilation

variable {hosts : List HostDecl} {program : Program} {image : Image}
  (c : Compilation hosts program image)

/-- The linked program. -/
def setting : Setting where
  program := ⟨image.code, c.labels⟩
  globals := c.progress.globals
  routines := routinesFrom (stub c.progress.scope).size c.definitions

theorem sound_start : GlobalLayout.empty.Sound c.scope.inner :=
  GlobalLayout.sound_empty fun name v => c.signed.not_variable name v

theorem sound : c.setting.globals.Sound c.progress.scope.inner :=
  (c.translated.grows c.sound_start).1

theorem widens : Widens c.scope c.progress.scope := (c.translated.grows c.sound_start).2.2

variable {d : Definition} {r : Routine} {pc entry : Nat} {name : String} {e : CodeEntry}

theorem compiled (hd : d ∈ c.definitions) : d.Compiled :=
  (c.translated.mem c.sound_start hd).1

theorem functions_eq : c.progress.functions = c.definitions.map Definition.function := by
  simpa using c.translated.functions.1

theorem sources_eq : c.definitions.map Definition.source = functionsOf program :=
  c.translated.functions.2

theorem programCode_eq : programCode c.progress = stub c.progress.scope ++
    ((c.definitions.map Definition.function).flatMap (·.code) ++ [.label haltLabel]) := by
  rw [programCode, functions_eq, List.append_assoc]

theorem size_code : image.code.size = (programCode c.progress).size := by
  have h := length_of_linkFrom c.linked
  rwa [Array.length_toList] at h

/-- Every routine is placed at its entry. -/
theorem placed (hr : r ∈ c.setting.routines) :
    Placed c.setting.program r.frame r.entry r.code ∧ r.entry + r.code.size ≤ image.code.size := by
  have h := (placed_routines c.collected c.linked (fun d hd => c.compiled hd) c.programCode_eq).1 r hr
  rw [← c.size_code] at h
  exact h

/-- Every address after the first instructions lies in a routine. -/
theorem exists_holds (h : (stub c.progress.scope).size ≤ pc) (hpc : pc < image.code.size) :
    ∃ r ∈ c.setting.routines, r.Holds pc := by
  refine (placed_routines c.collected c.linked (fun d hd => c.compiled hd) c.programCode_eq).2 pc h ?_
  rw [← c.size_code]
  exact hpc

theorem holds_unique {r' : Routine} (hr : r ∈ c.setting.routines) (hr' : r' ∈ c.setting.routines)
    (h : r.Holds pc) (h' : r'.Holds pc) : r = r' :=
  routine_unique hr hr' h h'

/-- The label of a function is its entry. -/
theorem label_routine (h : d.routine entry ∈ c.setting.routines) :
    c.labels.get? d.source.name = some entry := (c.placed h).1.1

theorem label_halt : c.labels.get? haltLabel = some image.code.size := by
  have h := c.collected
  rw [programCode] at h
  have hl := get?_label_of_collectLabels h
  rw [hl, c.size_code, programCode, Code.size_append, Code.size_append]
  simp

/-- The first instructions are placed. -/
theorem placed_stub : Placed c.setting.program .empty 0 (stub c.progress.scope) := by
  have hr : resolveCode .empty "" (stub c.progress.scope) = .ok (stub c.progress.scope) := by
    unfold stub
    split <;> rfl
  have hf : programCode c.progress = [] ++ (stub c.progress.scope ++
      ((c.definitions.map Definition.function).flatMap (·.code) ++ [.label haltLabel])) :=
    c.programCode_eq
  exact placed_of_assemble c.collected c.linked hf hr

/-! ## The names that a function sees -/

/-- A function of the program is called with as many arguments as it has parameters. -/
theorem calls {sig : Signature} (h : c.progress.scope.inner.get? name = some (.function sig))
    (hext : sig.external = false) :
    sig.variadic = false ∧ c.setting.Calls sig.params.length (.label name) := by
  rcases (c.signed.get?_iff _ _).mp (c.widens.functions h) with
    ⟨d, -, hd⟩ | ⟨f, hf, hn, params, hp, hsym⟩
  · cases hd
    cases hext
  · cases hsym
    simp only at hn
    rw [← c.sources_eq] at hf
    obtain ⟨d, hd, rfl⟩ := List.mem_map.mp hf
    obtain ⟨entry, hr⟩ := exists_routine_of_mem hd
    obtain ⟨rfl, -⟩ := parameterTypes_eq_ok hp
    refine ⟨rfl, _, hr, ?_, ?_, ?_⟩
    · rw [hn]
      exact c.label_routine hr
    · simp [Definition.routine, Definition.argc]
    · rw [hn]
      rfl

theorem fits_start (hd : d ∈ c.definitions) :
    c.setting.Fits (d.routine entry) d.start.frame.next d.start.scope := by
  obtain ⟨hc, hw₀, hw, -, -⟩ := c.translated.mem c.sound_start hd
  obtain ⟨_, hg⟩ := hc.grows
  have houter : d.scope.outer = [] := hw₀.outer.trans c.signed.outer
  have hglobal : c.setting.Fits (d.routine entry) d.start.frame.next d.scope.child := by
    intro name symbol hsym
    rw [Scope.lookup?_child, Scope.lookup?_eq, houter] at hsym
    simp only [List.findSome?_nil, Option.or_none] at hsym
    have hsym' := hw.keep hsym
    obtain ⟨ty, isArray, length, value, offset | key⟩ | sig := symbol
    · obtain ⟨o, ho, hpos, hb⟩ := c.sound.declared hsym'
      cases ho
      exact hb.lt le_rfl (Nat.lt_add_of_pos_right hpos)
    · obtain ⟨o, ho, -⟩ := c.sound.declared hsym'
      cases ho
    · exact c.calls hsym'
  refine fits_of_bound hc.bound hglobal hg.frame ?_
  rw [hc.start_params]
  exact le_rfl

/-- The body of a function stands behind its label. -/
theorem rooted (h : d.routine entry ∈ c.setting.routines) (hd : d ∈ c.definitions) :
    c.setting.Rooted (d.routine entry) d.start d.finish entry d.body := by
  obtain ⟨hc, -, -, -, hx⟩ := c.translated.mem c.sound_start hd
  have hlaid : Laid c.setting.program (d.routine entry) 1 1 entry d.body :=
    @laid_of_placed _ _ [.label d.source.name] d.body
      (Code.ofInstrs [Instr.ret.withOrigin d.source.loc]) (c.placed h).1 (List.append_assoc _ _ _)
      Nat.zero_lt_one
  rw [← Nat.cast_one, ← hc.start_next] at hlaid
  exact ⟨hc.start_reserved, hx, .refl _, c.fits_start hd, hlaid⟩

theorem exists_definition (hr : r ∈ c.setting.routines) :
    ∃ d ∈ c.definitions, r = d.routine r.entry := (exists_of_mem_routinesFrom hr).2

/-- The code of a function has addresses that a jump can name. -/
theorem size_lt_of_routine (hsize : image.code.size < 2 ^ 63) (hr : r ∈ c.setting.routines) :
    r.code.size < 2 ^ 63 := by
  have hle := (c.placed hr).2
  omega

/-- **Every address of a routine has an instruction that keeps the discipline.** -/
theorem runs (hsize : image.code.size < 2 ^ 63) (hr : r ∈ c.setting.routines) (hpc : r.Holds pc) :
    c.setting.Runs r pc := by
  obtain ⟨d, hd, hrd⟩ := c.exists_definition hr
  generalize r.entry = entry at hrd
  subst hrd
  have hfit := c.size_lt_of_routine hsize hr
  have hroot := c.rooted hr hd
  have hadm := Setting.admitted_of_lowerBody c.sound hfit rfl rfl (c.compiled hd).lowered hroot
  have hcode : (d.routine entry).code.size = d.body.size + 1 := by
    simp [Definition.routine, Definition.draft, functionCode]
  obtain ⟨hle, hlt⟩ := hpc
  change entry ≤ pc at hle
  change pc < entry + (d.routine entry).code.size at hlt
  by_cases hbody : pc < entry + d.body.size
  · obtain ⟨k, rfl⟩ := Nat.exists_eq_add_of_le hle
    exact Setting.runs_of_admitted hroot.laid hadm (by omega)
  · -- behind the body there is only the last return
    obtain rfl : pc = entry + d.body.size := by omega
    have hplaced := (c.placed hr).1
    simp only [Definition.routine, Definition.draft, functionCode, placed_append] at hplaced
    refine ⟨Instr.ret.withOrigin d.source.loc, ?_, ?_, .inl ⟨rfl, fun hholds => ?_⟩⟩
    · simpa [Definition.routine] using hplaced.2.1
    · trivial
    · have hlast : entry + d.body.size + 1 < entry + (d.routine entry).code.size := hholds.2
      omega

/-! ## The symbol map -/

theorem entries_code : image.symbols.code.entries =
    codeEntries (stub c.progress.scope).size (c.definitions.map Definition.function) := by
  rw [c.symbols, c.functions_eq]
  refine Table.entries_ofList ?_
  rw [keys_codeEntries, List.map_map]
  have hnodup := c.signed.nodup
  rw [← c.sources_eq, List.map_map] at hnodup
  exact hnodup

/-- An entry of the symbol map is that of a routine. -/
theorem routine_of_mem_entries (h : (name, e) ∈ image.symbols.code.entries) :
    ∃ d ∈ c.definitions, d.source.name = name ∧ e = d.entryAt e.addr ∧
      d.routine e.addr ∈ c.setting.routines := by
  rw [c.entries_code] at h
  exact routine_of_mem_codeEntries (fun d hd => c.compiled hd) h

/-- The code of a function is where the symbol map has it. -/
theorem routine_of_get? (hd : d ∈ c.definitions)
    (h : image.symbols.code.get? d.source.name = some e) :
    e = d.entryAt e.addr ∧ d.routine e.addr ∈ c.setting.routines := by
  obtain ⟨d', hd', hname, he, hr⟩ := c.routine_of_mem_entries (Table.get?_eq_some_iff.mp h)
  have hnodup := c.signed.nodup
  rw [← c.sources_eq, List.map_map] at hnodup
  obtain rfl := List.inj_on_of_nodup_map hnodup hd' hd hname
  exact ⟨he, hr⟩

/-- The function that an address lies in is a routine that holds the address. -/
theorem routine_of_functionAt? (h : image.symbols.functionAt? pc = some (name, e)) :
    ∃ d ∈ c.definitions, d.source.name = name ∧ e = d.entryAt e.addr ∧
      d.routine e.addr ∈ c.setting.routines ∧ (d.routine e.addr).Holds pc := by
  unfold Symbols.functionAt? at h
  obtain ⟨d, hd, hname, he, hr⟩ := c.routine_of_mem_entries (List.mem_of_find?_eq_some h)
  have hcovers := List.find?_some h
  rw [he] at hcovers
  simp only [CodeEntry.covers, Definition.entryAt, Bool.and_eq_true] at hcovers
  exact ⟨d, hd, hname, he, hr, of_decide_eq_true hcovers.1, of_decide_eq_true hcovers.2⟩

/-- Every address of a routine lies in the function of the symbol map that is the routine. -/
theorem functionAt?_of_holds (hr : r ∈ c.setting.routines) (hpc : r.Holds pc) :
    ∃ d ∈ c.definitions, image.symbols.functionAt? pc = some (d.source.name, d.entryAt r.entry) ∧
      r = d.routine r.entry := by
  obtain ⟨d, -, hrd, hmem⟩ := mem_codeEntries_of_routine (fun d hd => c.compiled hd) hr
  have hcovers : (d.entryAt r.entry).covers pc = true := by
    have hsize : r.code.size = d.draft.size := by rw [hrd]; rfl
    have hlt := hpc.2
    simp only [CodeEntry.covers, Definition.entryAt, Bool.and_eq_true]
    exact ⟨decide_eq_true hpc.1, decide_eq_true (hsize ▸ hlt)⟩
  -- some entry covers the address, and the routine of the first one that does is this one
  have hsome : (image.symbols.functionAt? pc).isSome := by
    rw [Symbols.functionAt?, List.find?_isSome, c.entries_code]
    exact ⟨_, hmem, hcovers⟩
  obtain ⟨⟨name, e⟩, hfound⟩ := Option.isSome_iff_exists.mp hsome
  obtain ⟨d', hd', rfl, he, hr', hpc'⟩ := c.routine_of_functionAt? hfound
  have heq : r = d'.routine e.addr := c.holds_unique hr hr' hpc hpc'
  have hentry : e.addr = r.entry := by rw [heq]; rfl
  rw [hentry] at he heq
  exact ⟨d', hd', by rw [hfound, he], heq⟩

end Compilation

end Stepwise.Compiler
