import Mathlib
import Stepwise.Proofs.Compilation
import Stepwise.Proofs.StmtCorrespondence

/-!
# Declarations compiled twice

The declarations of a program agree with those at moved places: signatures, global variables, and
functions. Global variables are laid out in step as long as both regions have the same length.

## Main definitions

* `GlobalLayout.place`: the region with one more variable

## Main results

* `declareHosts_eq_ok`: the names of host functions never clash
* `agree_declareFunctions`: the functions of a program
* `agree_declare`: global variables
-/

namespace Stepwise

/-! ## Signatures -/

namespace Compiler

open Lowering

theorem nodup_hostTable (hosts : List HostDecl) :
    (((hostTable hosts).entries.map Prod.snd).map HostDecl.name).Nodup := by
  have hnames : ((hostTable hosts).entries.map Prod.snd).map HostDecl.name =
      (hostTable hosts).entries.map Prod.fst := by
    rw [List.map_map]
    refine List.map_congr_left fun e he => ?_
    obtain ⟨d, -, rfl⟩ := List.mem_map.mp (Table.mem_of_mem_ofList he)
    rfl
  rw [hnames]
  exact (hostTable hosts).nodup

/-- Different names that are free may all be declared. -/
theorem exists_declareHosts {scope : Scope} {ds : List HostDecl}
    (hnodup : (ds.map HostDecl.name).Nodup) (hfree : ∀ d ∈ ds, scope.inner.get? d.name = none) :
    ∃ scope', declareHosts scope ds = .ok scope' := by
  induction ds generalizing scope with
  | nil => exact ⟨scope, rfl⟩
  | cons d rest ih =>
    rw [List.map_cons, List.nodup_cons] at hnodup
    let scope₁ : Scope := { scope with
      inner := scope.inner.insert d.name (.function ⟨d.params, d.ret, true, d.variadic⟩) }
    have hd : scope.declare d.name (.function ⟨d.params, d.ret, true, d.variadic⟩) = .ok scope₁ :=
      Scope.declare_eq_ok.mpr ⟨hfree d List.mem_cons_self, rfl⟩
    have hfree₁ : ∀ e ∈ rest, scope₁.inner.get? e.name = none := by
      intro e he
      have hne : e.name ≠ d.name := fun h => hnodup.1 (h ▸ List.mem_map_of_mem he)
      rw [Table.get?_insert_of_ne _ hne]
      exact hfree e (List.mem_cons_of_mem _ he)
    obtain ⟨scope', h⟩ := ih hnodup.2 hfree₁
    refine ⟨scope', ?_⟩
    rw [declareHosts, hd]
    exact h

/-- The names of host functions never clash. -/
theorem declareHosts_eq_ok (hosts : List HostDecl) :
    ∃ scope, declareHosts .root ((hostTable hosts).entries.map (·.2)) = .ok scope :=
  exists_declareHosts (nodup_hostTable hosts) fun _ _ => rfl

/-- The functions of a program are declared in both scopes or in neither. -/
theorem agree_declareFunctions {φ : Location → Location} {D : Anchors} {scope scope' : Scope}
    (hD : ∀ name, D.function name) (hs : scope.Same D scope') (stmts : List Stmt) :
    Agree φ (Scope.Same D) (declareFunctions scope stmts)
      (declareFunctions scope' (stmts.map (Stmt.relocate φ))) := by
  induction stmts generalizing scope scope' with
  | nil => exact .ok hs
  | cons s rest ih =>
    rw [List.map_cons, declareFunctions, declareFunctions, Stmt.function?_relocate]
    cases s.function? with
    | none => exact ih hs
    | some f =>
      refine (agree_parameterTypes f).bind ?_
      rintro params _ rfl
      have hkept : (Symbol.function ⟨params, f.ret, false, false⟩).Kept D f.name :=
        fun _ => hD f.name
      exact (hs.declare f.name hkept f.loc).bind fun scope₁ scope₁' hs₁ => ih hs₁

end Compiler

/-! ## Global variables -/

/-- The region with one more variable at its end. -/
def GlobalLayout.place (g : GlobalLayout) (name : String) (ty : Ty) (length : Option Nat)
    (values : List Value) : GlobalLayout :=
  { g with
    values := g.values ++ values.toArray
    entries := g.entries.insert name ⟨g.values.size, ty, length⟩ }

section Globals

variable {φ : Location → Location} {D : Anchors} {scope scope' : Scope}

theorem agree_contents (hs : scope.Same D scope') {decl decl' : Declaration}
    (hty : decl'.ty = decl.ty) (harray : decl'.isArray = decl.isArray) (d : Declarator) :
    Agree φ (fun r r' => r = r') (GlobalLayout.contents scope decl d)
      (GlobalLayout.contents scope' decl' (d.relocate φ)) := by
  unfold GlobalLayout.contents
  rw [hty, harray]
  split
  · refine (agree_arrayLength d).bind ?_
    rintro n _ rfl
    exact .ok rfl
  · have hinit : (d.relocate φ).initializer = d.initializer.map (Expr.relocate φ) := rfl
    rw [hinit]
    cases d.initializer with
    | none => exact .ok rfl
    | some init =>
      refine (agree_constant hs init).bind ?_
      rintro v _ rfl
      rw [Expr.loc_relocate]
      refine (agree_convertConstant decl.ty v init.loc).bind ?_
      rintro w _ rfl
      exact .ok rfl

/-- A global variable is laid out at the same offset in regions of one length. -/
theorem agree_declareOne (hs : scope.Same D scope') (hD : ∀ k, D.offset k)
    {decl decl' : Declaration} (hty : decl'.ty = decl.ty) (harray : decl'.isArray = decl.isArray)
    {g g' : GlobalLayout} (hsize : g'.values.size = g.values.size) (d : Declarator) :
    Agree φ (fun r r' => (∃ length values, r.1 = g.place d.name decl.ty length values ∧
        r'.1 = g'.place d.name decl.ty length values) ∧ r.2.Same D r'.2)
      (GlobalLayout.declareOne decl g scope d)
      (GlobalLayout.declareOne decl' g' scope' (d.relocate φ)) := by
  refine (agree_contents hs hty harray d).bind ?_
  rintro ⟨values, length, value⟩ _ rfl
  dsimp only
  rw [hty, harray, hsize]
  have hkept : (Symbol.variable
      ⟨decl.ty, decl.isArray, length, value, .global g.values.size⟩).Kept D d.name :=
    fun k _ => hD k
  refine (hs.declare d.name hkept d.loc).bind fun scope₁ scope₁' hs₁ => .ok ⟨?_, hs₁⟩
  refine ⟨length, values, rfl, ?_⟩
  rw [GlobalLayout.place, hsize]
  rfl

/-- **Global variables are laid out in step**, for any relation between regions of one length that
one more variable keeps. -/
theorem agree_declare {P : GlobalLayout → GlobalLayout → Prop}
    (hsize : ∀ {g g'}, P g g' → g'.values.size = g.values.size)
    (hplace : ∀ {g g'} name ty length values, P g g' →
      P (g.place name ty length values) (g'.place name ty length values))
    (hD : ∀ k, D.offset k) (hs : scope.Same D scope') {g g' : GlobalLayout} (hg : P g g')
    (decl : Declaration) :
    Agree φ (fun r r' => P r.1 r'.1 ∧ r.2.Same D r'.2) (g.declare scope decl)
      (g'.declare scope' (decl.relocate φ)) := by
  have hall (ds : List Declarator) {g g' : GlobalLayout} {scope scope' : Scope} (hg : P g g')
      (hs : scope.Same D scope') :
      Agree φ (fun r r' => P r.1 r'.1 ∧ r.2.Same D r'.2)
        (GlobalLayout.declareAll decl g scope ds)
        (GlobalLayout.declareAll (decl.relocate φ) g' scope'
          (ds.map (Declarator.relocate φ))) := by
    induction ds generalizing g g' scope scope' with
    | nil => exact .ok ⟨hg, hs⟩
    | cons d rest ih =>
      rw [List.map_cons, GlobalLayout.declareAll, GlobalLayout.declareAll]
      refine (agree_declareOne hs hD rfl rfl (hsize hg) d).bind ?_
      rintro ⟨_, scope₁⟩ ⟨_, scope₁'⟩ ⟨⟨length, values, rfl, rfl⟩, hs₁⟩
      exact ih (hplace _ _ _ _ hg) hs₁
  unfold GlobalLayout.declare
  have hty : (decl.relocate φ).ty = decl.ty := rfl
  rw [hty]
  split
  · exact agree_at rfl decl.loc
  · exact hall decl.declarators hg hs

end Globals

end Stepwise
