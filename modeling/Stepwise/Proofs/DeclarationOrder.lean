import Mathlib
import Stepwise.Proofs.AlignedRegions

/-!
# Declarations in another order

All functions see the names of all others, so two functions that stand side by side may be declared
in either order. Each of them draws its own labels, and the scratch cells that it asks for are found
or made by the other one as well. What is declared later does not tell the difference.

## Main definitions

* `Compiler.Progress.Reordered`: declarations that were compiled in another order

## Main results

* `Progress.Reordered.run`: later declarations keep the correspondence
* `Progress.Reordered.swap`: two functions may be compiled in either order
* `translate_swap`: a program with two functions the other way round
-/

namespace Stepwise

namespace Compiler

open Lowering

/-! ## Signatures -/

theorem declareFunctions_append (scope : Scope) (stmts stmts' : List Stmt) :
    declareFunctions scope (stmts ++ stmts') =
      declareFunctions scope stmts >>= fun s => declareFunctions s stmts' := by
  induction stmts generalizing scope with
  | nil => rfl
  | cons s rest ih =>
    rw [List.cons_append, declareFunctions, declareFunctions]
    cases s.function? with
    | none => exact ih scope
    | some f =>
      simp only [bind_assoc, ih]

/-- Two functions may be declared in either order. -/
theorem declareFunctions_swap {scope scope' : Scope} {s t : Stmt} {f g : Function}
    (hf : s.function? = some f) (hg : t.function? = some g) {post : List Stmt}
    (h : declareFunctions scope (s :: t :: post) = .ok scope') :
    ∃ scope'', declareFunctions scope (t :: s :: post) = .ok scope'' ∧
      scope'.Same .all scope'' := by
  simp only [declareFunctions, hf, hg, bind_eq_ok, locate_eq_ok] at h
  obtain ⟨params, hp, s₁, hd, params', hp', s₂, hd', hpost⟩ := h
  obtain ⟨hfree, rfl⟩ := Scope.declare_eq_ok.mp hd
  obtain ⟨hfree', rfl⟩ := Scope.declare_eq_ok.mp hd'
  -- the names are different, or the second one would not be free
  have hne : g.name ≠ f.name := by
    intro heq
    rw [heq, Table.get?_insert_self] at hfree'
    cases hfree'
  rw [Table.get?_insert_of_ne _ hne] at hfree'
  let x : Symbol := .function ⟨params, f.ret, false, false⟩
  let y : Symbol := .function ⟨params', g.ret, false, false⟩
  have hfirst : scope.declare g.name y = .ok ⟨scope.inner.insert g.name y, scope.outer⟩ :=
    Scope.declare_eq_ok.mpr ⟨hfree', rfl⟩
  have hsecond : (⟨scope.inner.insert g.name y, scope.outer⟩ : Scope).declare f.name x =
      .ok ⟨(scope.inner.insert g.name y).insert f.name x, scope.outer⟩ := by
    refine Scope.declare_eq_ok.mpr ⟨?_, rfl⟩
    rw [Table.get?_insert_of_ne _ (Ne.symm hne), hfree]
  have hsame : Scope.Same .all ⟨(scope.inner.insert f.name x).insert g.name y, scope.outer⟩
      ⟨(scope.inner.insert g.name y).insert f.name x, scope.outer⟩ := by
    refine List.Forall₂.cons (fun name => ⟨?_, fun symbol _ => symbol.kept_all name⟩) ?_
    · simp only [Table.get?_insert]
      split
      next hname => rw [if_neg (hname ▸ Ne.symm hne)]
      next => rfl
    · exact List.forall₂_same.mpr fun _ _ name => ⟨rfl, fun symbol _ => symbol.kept_all name⟩
  obtain ⟨scope'', hpost', hsame'⟩ :=
    (agree_declareFunctions (φ := id) (fun _ => trivial) hsame post).exists_of_ok hpost
  have hmap : post.map (Stmt.relocate id) = post := by
    rw [funext Stmt.relocate_id]
    exact List.map_id post
  rw [hmap] at hpost'
  refine ⟨scope'', ?_, hsame'⟩
  simp only [declareFunctions, hf, hg, bind_eq_ok, locate_eq_ok]
  exact ⟨params', hp', _, hfirst, params, hp, _, hsecond, hpost'⟩

/-! ## Declarations -/

/-- What the names of a scope stand for: the offsets of variables and the functions of the
program. -/
def anchors (scope : Scope) : Anchors where
  offset k := ∃ (name : String) (v : Variable) (o : Nat),
    scope.inner.get? name = some (.variable v) ∧ v.slot = .global o ∧ (o : Int) = k
  function name := ∃ sig : Signature,
    scope.inner.get? name = some (.function sig) ∧ sig.external = false

/-- Names mean the same with what they stand for in the end. -/
theorem same_anchors {s s' final : Scope} (h : s.Same .all s') (hw : Widens s final)
    (houter : final.outer = []) : s.Same (anchors final) s' := by
  have hs : s.outer = [] := hw.outer.symm.trans houter
  obtain ⟨inner, outer⟩ := s
  obtain ⟨inner', outer'⟩ := s'
  cases hs
  obtain - | ⟨hinner, hrest⟩ := h
  refine List.Forall₂.cons (fun name => ⟨(hinner name).1, fun symbol hsym => ?_⟩) ?_
  · rcases symbol with v | f
    · exact fun k hk => ⟨name, v, k, hw.keep hsym, hk, rfl⟩
    · exact fun hext => ⟨f, hw.keep hsym, hext⟩
  · cases hrest
    exact .nil

/-- Declarations that were compiled in another order, of a program whose names are those of `final`
in the end. -/
structure Progress.Reordered (final : Scope) (p p' : Progress) : Prop where
  scope : p.scope.Same .all p'.scope
  globals : p.globals.Aligned p'.globals
  functions : ∃ fs, fs.Perm p'.functions ∧
    List.Forall₂ (CompiledFunction.Twin id (anchors final) ⟨p.globals, p'.globals⟩) p.functions fs

theorem compileStmt_eq_ok {p q : Progress} {s : Stmt} {f : Function} (hf : s.function? = some f) :
    compileStmt p s = .ok q ↔ ∃ c globals, compileFunction p.scope p.globals f = .ok (c, globals) ∧
      q = ⟨p.scope, globals, p.functions ++ [c]⟩ := by
  cases s with
  | function name parameters body result loc =>
    cases hf
    simp only [compileStmt, Stmt.function?, bind_eq_ok, pure_eq_ok, Prod.exists]
    simp only [eq_comm]
  | _ => cases hf

/-- A translation keeps the region sound and only adds names. -/
theorem sound_of_foldlM {p q : Progress} {stmts : List Stmt}
    (h : stmts.foldlM compileStmt p = .ok q) (hs : p.globals.Sound p.scope.inner) :
    q.globals.Sound q.scope.inner ∧ Widens p.scope q.scope := by
  obtain ⟨ds, hds⟩ := translated_of_foldlM h
  obtain ⟨hq, -, hw⟩ := hds.grows hs
  exact ⟨hq, hw⟩

/-- A function is compiled with another region as well, and asks for the same scratch cells. -/
theorem exists_compileFunction {scope scope' final : Scope} (h : scope.Same .all scope')
    (hw : Widens scope final) (houter : final.outer = []) (W : Regions) {f : Function}
    {c : CompiledFunction} {globals : GlobalLayout}
    (hc : compileFunction scope W.left f = .ok (c, globals)) :
    ∃ c' tys, compileFunction scope' W.right f = .ok (c', W.right.drawAll tys) ∧
      globals = W.left.drawAll tys ∧
      c.Twin id (anchors final) ⟨W.left.drawAll tys, W.right.drawAll tys⟩ c' := by
  have hagree := agree_compileFunction (φ := id) (W := W) (same_anchors h hw houter) f
  rw [f.relocate_id] at hagree
  obtain ⟨⟨c', globals'⟩, hc', W', ⟨tys, rfl⟩, htwin, rfl, rfl⟩ := hagree.exists_of_ok hc
  exact ⟨c', tys, hc', rfl, htwin⟩

namespace Progress.Reordered

variable {final : Scope} {p p' q : Progress}

/-- Compiled functions correspond in larger regions. -/
theorem functions_extend (h : p.Reordered final p') {g g' : GlobalLayout}
    (hg : p.globals.Extends g) (hg' : p'.globals.Extends g') :
    ∃ fs, fs.Perm p'.functions ∧
      List.Forall₂ (CompiledFunction.Twin id (anchors final) ⟨g, g'⟩) p.functions fs := by
  obtain ⟨fs, hperm, hfs⟩ := h.functions
  exact ⟨fs, hperm, hfs.imp fun f f' hf => hf.extend hg hg'⟩

/-- One more declaration keeps the correspondence. -/
theorem step (h : p.Reordered final p') (hw : Widens p.scope final) (houter : final.outer = [])
    {s : Stmt} (hs : compileStmt p s = .ok q) :
    ∃ q', compileStmt p' s = .ok q' ∧ q.Reordered final q' := by
  cases hf : s.function? with
  | some f =>
    obtain ⟨c, globals, hc, rfl⟩ := (compileStmt_eq_ok hf).mp hs
    obtain ⟨c', tys, hc', rfl, htwin⟩ :=
      exists_compileFunction h.scope hw houter ⟨p.globals, p'.globals⟩ hc
    refine ⟨_, (compileStmt_eq_ok hf).mpr ⟨c', _, hc', rfl⟩, h.scope, h.globals.drawAll tys, ?_⟩
    obtain ⟨fs, hperm, hfs⟩ :=
      h.functions_extend (p.globals.extends_drawAll tys) (p'.globals.extends_drawAll tys)
    exact ⟨fs ++ [c'], hperm.append_right _, List.rel_append hfs (.cons htwin .nil)⟩
  | none =>
    cases s with
    | declare decl =>
      -- variables are laid out in step, and both regions grow
      have hagree := agree_declare (φ := id)
        (P := fun g g' => g.Aligned g' ∧ p.globals.Extends g ∧ p'.globals.Extends g')
        (fun hg => hg.1.size)
        (fun name ty length values hg => ⟨hg.1.place name ty length values,
          hg.2.1.trans (GlobalLayout.extends_place _ name ty length values),
          hg.2.2.trans (GlobalLayout.extends_place _ name ty length values)⟩)
        (fun _ => trivial) h.scope ⟨h.globals, .refl _, .refl _⟩ decl
      rw [decl.relocate_id] at hagree
      simp only [compileStmt, bind_eq_ok, pure_eq_ok] at hs
      obtain ⟨⟨globals, scope⟩, hdecl, rfl⟩ := hs
      obtain ⟨⟨globals', scope'⟩, hdecl', ⟨haligned, hx, hx'⟩, hscope⟩ := hagree.exists_of_ok hdecl
      refine ⟨⟨scope', globals', p'.functions⟩, ?_, hscope, haligned, h.functions_extend hx hx'⟩
      simp only [compileStmt, bind_eq_ok, pure_eq_ok]
      exact ⟨_, hdecl', rfl⟩
    | function name parameters body result loc => cases hf
    | _ => simp [compileStmt, Stmt.function?, at_ne_ok] at hs

/-- **Later declarations keep the correspondence.** -/
theorem run {stmts : List Stmt} (h : p.Reordered final p')
    (hs : p.globals.Sound p.scope.inner) (hfold : stmts.foldlM compileStmt p = .ok q)
    (hw : Widens q.scope final) (houter : final.outer = []) :
    ∃ q', stmts.foldlM compileStmt p' = .ok q' ∧ q.Reordered final q' := by
  induction stmts generalizing p p' with
  | nil =>
    cases hfold
    exact ⟨p', rfl, h⟩
  | cons s rest ih =>
    have hwp := (sound_of_foldlM hfold hs).2.trans hw
    rw [List.foldlM_cons, bind_eq_ok] at hfold
    obtain ⟨p₁, hstep, hrest⟩ := hfold
    obtain ⟨p₁', hstep', h₁⟩ := h.step hwp houter hstep
    have hone : [s].foldlM compileStmt p = .ok p₁ := by
      rw [List.foldlM_cons, hstep]
      rfl
    obtain ⟨q', hrest', hq⟩ := ih h₁ (sound_of_foldlM hone hs).1 hrest
    refine ⟨q', ?_, hq⟩
    rw [List.foldlM_cons, hstep']
    exact hrest'

/-- **Two functions may be compiled in either order.** -/
theorem swap (h : p.Reordered final p') (hw : Widens p.scope final) (houter : final.outer = [])
    {s t : Stmt} {f g : Function} (hf : s.function? = some f) (hg : t.function? = some g)
    {p₁ p₂ : Progress} (hs : compileStmt p s = .ok p₁) (ht : compileStmt p₁ t = .ok p₂) :
    ∃ p₁' p₂', compileStmt p' t = .ok p₁' ∧ compileStmt p₁' s = .ok p₂' ∧
      p₂.Reordered final p₂' := by
  obtain ⟨c, globals, hc, rfl⟩ := (compileStmt_eq_ok hf).mp hs
  obtain ⟨d, globals₂, hd, rfl⟩ := (compileStmt_eq_ok hg).mp ht
  -- the second function comes first in the other region, and then the first one
  obtain ⟨d', tys', hd', rfl, htwin'⟩ :=
    exists_compileFunction h.scope hw houter ⟨globals, p'.globals⟩ hd
  obtain ⟨c', tys, hc', rfl, htwin⟩ :=
    exists_compileFunction h.scope hw houter ⟨p.globals, p'.globals.drawAll tys'⟩ hc
  dsimp only at hc' hd' htwin htwin'
  refine ⟨_, _, (compileStmt_eq_ok hg).mpr ⟨d', _, hd', rfl⟩,
    (compileStmt_eq_ok hf).mpr ⟨c', _, hc', rfl⟩, h.scope, ?_, ?_⟩
  · have haligned := (h.globals.drawAll (tys ++ tys')).trans
      (GlobalLayout.aligned_drawAll_of_perm (@List.perm_append_comm _ tys tys') _)
    rwa [GlobalLayout.drawAll_append, GlobalLayout.drawAll_append] at haligned
  · have hx : (p.globals.drawAll tys).Extends ((p.globals.drawAll tys).drawAll tys') :=
      GlobalLayout.extends_drawAll _ tys'
    have hx' : (p'.globals.drawAll tys').Extends ((p'.globals.drawAll tys').drawAll tys) :=
      GlobalLayout.extends_drawAll _ tys
    obtain ⟨fs, hperm, hfs⟩ :=
      h.functions_extend ((p.globals.extends_drawAll tys).trans hx)
        ((p'.globals.extends_drawAll tys').trans hx')
    refine ⟨fs ++ [c', d'], ?_, ?_⟩
    · rw [List.append_assoc]
      exact hperm.append (List.Perm.swap _ _ _)
    · rw [List.append_assoc]
      refine List.rel_append hfs (.cons ?_ (.cons ?_ .nil))
      · exact htwin.extend hx (.refl _)
      · exact htwin'.extend (.refl _) hx'

end Progress.Reordered

/-! ## Programs in another order -/

/-- **A program with two functions the other way round compiles as well.** -/
theorem translate_swap {hosts : List HostDecl} {pre post : List Stmt} {s t : Stmt} {f g : Function}
    (hf : s.function? = some f) (hg : t.function? = some g) {p : Progress}
    (h : translate hosts ⟨pre ++ s :: t :: post⟩ = .ok p) :
    ∃ p', translate hosts ⟨pre ++ t :: s :: post⟩ = .ok p' ∧ p.Reordered p.scope p' := by
  simp only [translate, bind_eq_ok] at h
  obtain ⟨scope, hscope, hfold⟩ := h
  have hsigned := signed_of_signatures hscope
  have hsound : GlobalLayout.empty.Sound scope.inner :=
    GlobalLayout.sound_empty fun name v => hsigned.not_variable name v
  -- both programs declare the same names
  have hswap : ∃ scope', signatures hosts ⟨pre ++ t :: s :: post⟩ = .ok scope' ∧
      scope.Same .all scope' := by
    simp only [signatures, bind_eq_ok, declareFunctions_append] at hscope ⊢
    obtain ⟨scope₀, hhosts, scope₁, hpre, hrest⟩ := hscope
    obtain ⟨scope', hrest', hsame⟩ := declareFunctions_swap hf hg hrest
    exact ⟨scope', ⟨scope₀, hhosts, scope₁, hpre, hrest'⟩, hsame⟩
  obtain ⟨scope', hscope', hsame⟩ := hswap
  have hwp := (sound_of_foldlM hfold hsound).2
  have houter : p.scope.outer = [] := hwp.outer.trans hsigned.outer
  have hstart : Progress.Reordered p.scope ⟨scope, .empty, []⟩ ⟨scope', .empty, []⟩ :=
    ⟨hsame, .refl _, [], .refl _, .nil⟩
  -- up to the two functions, across them, and behind them
  simp only [List.foldlM_append, List.foldlM_cons, bind_eq_ok] at hfold
  obtain ⟨p₀, hpre, p₁, hs, p₂, ht, hpost⟩ := hfold
  obtain ⟨hsound₀, hw₀⟩ := sound_of_foldlM hpre hsound
  have htwo : [s, t].foldlM compileStmt p₀ = .ok p₂ := by
    simp only [List.foldlM_cons, List.foldlM_nil, bind_eq_ok, pure_eq_ok]
    exact ⟨p₁, hs, p₂, ht, rfl⟩
  obtain ⟨hsound₂, hw₂⟩ := sound_of_foldlM htwo hsound₀
  obtain ⟨-, hw⟩ := sound_of_foldlM hpost hsound₂
  obtain ⟨p₀', hpre', h₀⟩ := hstart.run hsound hpre (hw₂.trans hw) houter
  obtain ⟨p₁', p₂', ht', hs', h₂⟩ := h₀.swap (hw₂.trans hw) houter hf hg hs ht
  obtain ⟨p', hpost', hp'⟩ := h₂.run hsound₂ hpost (.refl _) houter
  refine ⟨p', ?_, hp'⟩
  simp only [translate, bind_eq_ok]
  refine ⟨scope', hscope', ?_⟩
  simp only [List.foldlM_append, List.foldlM_cons, bind_eq_ok]
  exact ⟨p₀', hpre', p₁', ht', p₂', hs', hpost'⟩

end Compiler

end Stepwise
