import Mathlib
import Stepwise.Compiler
import Stepwise.Proofs.ExprCorrespondence

/-!
# Functions compiled twice

Lowering a statement goes in step with lowering it with its places moved, and so does compiling a
function: both compilations give variables the same slots of the frame, reserve the same slots, and
draw the same labels.

## Main definitions

* `Draft.Twin`: functions under construction that correspond
* `CompiledFunction.Twin`: compiled functions that correspond

## Main results

* `inStep_lowerStmt`: statements
* `agree_compileFunction`: functions
-/

namespace Stepwise.Lowering

open Snippet

/-- Functions under construction that correspond: they have given out the same labels and slots, and
their names mean the same. Reservations have their places already. -/
structure Draft.Twin (φ : Location → Location) (D : Anchors) (W : Regions) (d d' : Draft) :
    Prop where
  supply : d.supply.Twin W d'.supply
  frame : d'.frame = d.frame
  reserved : d.reserved.Twin φ D (fun _ => False) W d'.reserved
  sourced : d.reserved.Sourced
  scope : d.scope.Same D d'.scope

/-- The labels that the statements at a site may jump to without defining them. -/
def Site.targets (site : Site) (l : String) : Prop :=
  ∃ x : LoopLabels, site.loop = some x ∧ loopTargets x.next x.exit l

variable {α β : Type} {φ : Location → Location} {D : Anchors} {J : String → Prop} {W : Regions}

/-! ## Steps of a construction -/

theorem inStep_ofLower {R : Regions → α → β → Prop} {f : Scope → Lower α} {g : Scope → Lower β}
    (h : ∀ scope scope', scope.Same D scope' →
      InStep φ Supply.Twin W R (f scope) (g scope')) :
    InStep φ (Draft.Twin φ D) W R (Build.ofLower f) (Build.ofLower g) := by
  intro d d' hd
  refine (h d.scope d'.scope hd.scope d.supply d'.supply hd.supply).bind ?_
  rintro ⟨a, s⟩ ⟨b, s'⟩ ⟨W', hW, hs, hR⟩
  exact .ok ⟨W', hW, ⟨hs, hd.frame, hd.reserved.mono hW, hd.sourced, hd.scope⟩, hR⟩

@[inherit_doc inStep_freshLabel]
theorem inStep_buildLabel {S : Regions → α → β → Prop} (site : Site) (kind : String)
    {f : String → Build α} {g : String → Build β}
    (h : ∀ l, InStep φ (Draft.Twin φ D) W S (f l) (g l)) :
    InStep φ (Draft.Twin φ D) W S (buildLabel site kind >>= f) (buildLabel site kind >>= g) := by
  rintro ⟨⟨labels, globals⟩, frame, reserved, scope⟩ ⟨⟨labels', globals'⟩, frame', reserved', scope'⟩
    ⟨⟨hlabels, hleft, hright⟩, hframe, hreserved, hsourced, hscope⟩
  obtain rfl : labels' = labels := hlabels
  exact h _ _ _ ⟨⟨rfl, hleft, hright⟩, hframe, hreserved, hsourced, hscope⟩

theorem inStep_buildExpr (site : Site) (e : Expr) :
    InStep φ (Draft.Twin φ D) W (Code.Twin φ D site.targets) (buildExpr site e)
      (buildExpr site (e.relocate φ)) :=
  inStep_ofLower fun _ _ hs => (inStep_lower hs site.fn e).map fun _ _ _ _ hr => hr.1

theorem inStep_buildEffect (site : Site) (e : Expr) :
    InStep φ (Draft.Twin φ D) W (Code.Twin φ D site.targets) (buildEffect site e)
      (buildEffect site (e.relocate φ)) :=
  inStep_ofLower fun _ _ hs => inStep_lowerEffect hs site.fn e

/-- Afterwards both constructions are back in their old scopes. -/
theorem inStep_inChild {R : Regions → α → β → Prop} {x : Build α} {y : Build β}
    (h : InStep φ (Draft.Twin φ D) W R x y) :
    InStep φ (Draft.Twin φ D) W R (inChild x) (inChild y) := by
  intro d d' hd
  have hinside : d.inside.Twin φ D W d'.inside :=
    ⟨hd.supply, hd.frame, hd.reserved, hd.sourced, hd.scope.child⟩
  refine (h d.inside d'.inside hinside).bind ?_
  rintro ⟨a, e⟩ ⟨b, e'⟩ ⟨W', hW, he, hR⟩
  exact .ok ⟨W', hW, ⟨he.supply, he.frame, he.reserved, he.sourced, hd.scope⟩, hR⟩

theorem inStep_allocate (name : String) (ty : Ty) (length : Option Nat) :
    InStep φ (Draft.Twin φ D) W (fun _ key key' => key = key') (allocate name ty length)
      (allocate name ty length) := by
  intro d d' hd
  refine .ok ⟨W, .refl W, ⟨hd.supply, ?_, hd.reserved, hd.sourced, hd.scope⟩, ?_⟩
  · simp only [hd.frame]
  · simp only [hd.frame]

theorem inStep_declareVariable (name : String) {v : Variable}
    (hv : (Symbol.variable v).Kept D name) (loc : Location) :
    InStep φ (Draft.Twin φ D) W (fun _ _ _ => True) (declareVariable name v loc)
      (declareVariable name v (φ loc)) := by
  intro d d' hd
  refine (hd.scope.declare name hv loc).bind fun scope scope' hs => ?_
  exact .ok ⟨W, .refl W, ⟨hd.supply, hd.frame, hd.reserved, hd.sourced, hs⟩, trivial⟩

theorem inStep_reserve {code code' : Code} (h : code.Twin φ D (fun _ => False) W code')
    (hsrc : code.Sourced) :
    InStep φ (Draft.Twin φ D) W (fun _ _ _ => True) (reserve code) (reserve code') := by
  intro d d' hd
  have hd' : Draft.Twin φ D W { d with reserved := d.reserved ++ code }
      { d' with reserved := d'.reserved ++ code' } :=
    ⟨hd.supply, hd.frame, hd.reserved.append h, hd.sourced.append hsrc, hd.scope⟩
  exact .ok ⟨W, .refl W, hd', trivial⟩

/-- Codes that correspond, with a place for every instruction. -/
def SourcedTwin (φ : Location → Location) (D : Anchors) (J : String → Prop) (W : Regions)
    (c c' : Code) : Prop :=
  c.Twin φ D J W c' ∧ c.Sourced

theorem inStep_takeReserved :
    InStep φ (Draft.Twin φ D) W (SourcedTwin φ D J) takeReserved takeReserved := by
  intro d d' hd
  have hd' : Draft.Twin φ D W { d with reserved := [] } { d' with reserved := [] } :=
    ⟨hd.supply, hd.frame, .nil, Code.sourced_nil, hd.scope⟩
  exact .ok ⟨W, .refl W, hd', hd.reserved.widen fun _ => False.elim, hd.sourced⟩

/-! ## Declarations -/

/-- A variable of the frame keeps its place. -/
theorem kept_frame {ty : Ty} {isArray : Bool} {length : Option Nat} {value : Option Value}
    {key name : String} :
    (Symbol.variable ⟨ty, isArray, length, value, .frame key⟩).Kept D name := by
  intro k hk
  cases hk

theorem twin_arraySlots (ty : Ty) (d : Declarator) (length : Nat) :
    (arraySlots ty d length).Twin φ D J W (arraySlots ty (d.relocate φ) length) := by
  refine .ofInstrs ?_ ?_
  · rw [List.forall₂_map_left_iff, List.forall₂_map_right_iff, List.forall₂_same]
    intro k _
    exact ((Instr.Twin.unary _ (.imm _)).withComment _).withOrigin d.loc
  · rw [List.filterMap_map, List.filterMap_eq_nil_iff]
    exact fun k _ => rfl

theorem sourced_arraySlots (ty : Ty) (d : Declarator) (length : Nat) :
    (arraySlots ty d length).Sourced := by
  refine Code.sourced_ofInstrs fun i hi => ?_
  obtain ⟨k, -, rfl⟩ := List.mem_map.mp hi
  rfl

theorem inStep_declareArray (site : Site) (ty : Ty) (d : Declarator) :
    InStep φ (Draft.Twin φ D) W (Code.Twin φ D J) (declareArray site ty d)
      (declareArray site ty (d.relocate φ)) := by
  refine .liftBind (agree_arrayLength d) ?_
  rintro n _ rfl
  refine (inStep_allocate d.name ty (some n)).bind ?_
  rintro W₂ key _ - rfl
  refine (inStep_declareVariable d.name kept_frame d.loc).bind fun W₃ _ _ _ _ => ?_
  dsimp only
  split
  · exact (inStep_reserve (twin_arraySlots ty d n) (sourced_arraySlots ty d n)).bind
      fun W₄ _ _ _ _ => .pure .nil
  · exact .pure (twin_arraySlots ty d n)

theorem agree_literalInitial (ty : Ty) (d : Declarator) :
    Agree φ (fun o o' => o = o') (literalInitial ty d) (literalInitial ty (d.relocate φ)) := by
  unfold literalInitial Declarator.relocate
  cases d.initializer with
  | none => exact .ok rfl
  | some e =>
    cases e with
    | literal v loc => exact (agree_convertConstant ty v loc).map fun _ _ h => congrArg some h
    | _ => exact .ok rfl

/-- First values that correspond. -/
inductive Initial.Twin (φ : Location → Location) (D : Anchors) (J : String → Prop) (W : Regions) :
    Initial → Initial → Prop
  | default : Initial.Twin φ D J W .default .default
  | constant (v : Value) : Initial.Twin φ D J W (.constant v) (.constant v)
  | computed {store store' : Code} : store.Twin φ D J W store' →
    Initial.Twin φ D J W (.computed store) (.computed store')

theorem Initial.Twin.mono {W' : Regions} {initial initial' : Initial}
    (h : initial.Twin φ D J W initial') (hW : W.Grows W') : initial.Twin φ D J W' initial' := by
  cases h with
  | default => exact .default
  | constant v => exact .constant v
  | computed h => exact .computed (h.mono hW)

theorem inStep_scalarCode (site : Site) (ty : Ty) (name : String) (loc : Location)
    {dest : Operand} (hdest : dest.Kept D) {initial initial' : Initial}
    (hi : initial.Twin φ D J W initial') :
    InStep φ (Draft.Twin φ D) W (Code.Twin φ D J) (scalarCode site ty name loc dest initial)
      (scalarCode site ty name (φ loc) dest initial') := by
  unfold scalarCode
  -- both sides push and store the same values: only places and cells may differ
  have hslot (W : Regions) (v : Value) :
      ((Instr.push (.imm v)).withComment (slotComment ty name)).Twin φ D W
        ((Instr.push (.imm v)).withComment (slotComment ty name)) :=
    (Instr.Twin.unary _ (.imm v)).withComment _
  have hstore (W : Regions) (v : Value) :
      Code.Twin φ D J W (Code.ofInstrs [.mov dest (.imm v)]) (Code.ofInstrs [.mov dest (.imm v)]) :=
    .ofInstrs (.cons (.binary _ (.same hdest) (.imm v)) .nil) rfl
  dsimp only
  split
  · have hreserved : (Code.ofInstrs [((Instr.push (.imm (.defaultOf ty))).withComment
        (slotComment ty name)).withOrigin loc]).Sourced := by
      refine Code.sourced_ofInstrs fun i hi => ?_
      obtain rfl := List.mem_singleton.mp hi
      rfl
    refine (inStep_reserve (.ofInstrs (.cons ((hslot W _).withOrigin loc) .nil) rfl) hreserved).bind
      fun W₁ _ _ hW₁ _ => .pure ?_
    cases hi with
    | default => exact hstore W₁ _
    | constant v => exact hstore W₁ v
    | computed h => exact h.mono hW₁
  · refine .pure ?_
    cases hi with
    | default => exact .ofInstrs (.cons (hslot W _) .nil) rfl
    | constant v => exact .ofInstrs (.cons (hslot W v) .nil) rfl
    | computed h => exact Code.Twin.append (.ofInstrs (.cons (hslot W _) .nil) rfl) h

theorem inStep_declareScalar (site : Site) (ty : Ty) (d : Declarator) :
    InStep φ (Draft.Twin φ D) W (Code.Twin φ D J) (declareScalar site ty d)
      (declareScalar site ty (d.relocate φ)) := by
  refine .liftBind (agree_literalInitial ty d) ?_
  rintro literal _ rfl
  refine (inStep_allocate d.name ty none).bind ?_
  rintro W₂ key _ - rfl
  extract_lets dest finish finish'
  have hdest : dest.Kept D := trivial
  -- whatever the initializer, the rest of the declaration is the same
  have hfinish (W : Regions) (initial initial' : Initial) (h : initial.Twin φ D J W initial') :
      InStep φ (Draft.Twin φ D) W (Code.Twin φ D J) (finish initial) (finish' initial') := by
    refine (inStep_declareVariable d.name kept_frame d.loc).bind fun W₃ _ _ hW₃ _ => ?_
    refine (inStep_scalarCode site ty d.name d.loc hdest (h.mono hW₃)).bind
      fun W₄ code code' _ hcode => ?_
    exact .pure (hcode.located d.loc)
  have hend (W : Regions) {initial initial' : Initial} (h : initial.Twin φ D J W initial') :
      InStep φ (Draft.Twin φ D) W (Code.Twin φ D J) (pure initial >>= finish)
        (pure initial' >>= finish') :=
    InStep.bind (R := Initial.Twin φ D J) (.pure h) fun W i i' _ hi => hfinish W i i' hi
  have hinit : (d.relocate φ).initializer = d.initializer.map (Expr.relocate φ) := rfl
  rw [hinit]
  cases literal with
  | some v => exact hend W₂ (.constant v)
  | none =>
    cases d.initializer with
    | none => exact hend W₂ .default
    | some init =>
      refine (inStep_ofLower (R := Code.Twin φ D J) fun scope scope' hs => ?_).bind
        fun W₃ store store' _ hstore => hend W₃ (.computed hstore)
      exact inStep_storeInto hs hdest ty init (inStep_lower hs site.fn init)

theorem inStep_declareLocals (site : Site) (decl decl' : Declaration) (hty : decl'.ty = decl.ty)
    (harray : decl'.isArray = decl.isArray) (ds : List Declarator) :
    InStep φ (Draft.Twin φ D) W (Code.Twin φ D J) (declareLocals site decl ds)
      (declareLocals site decl' (ds.map (Declarator.relocate φ))) := by
  induction ds generalizing W with
  | nil => exact .pure .nil
  | cons d rest ih =>
    rw [List.map_cons, declareLocals, declareLocals, hty, harray]
    have hrest (W₁ : Regions) {code code' : Code} (hcode : code.Twin φ D J W₁ code') :
        InStep φ (Draft.Twin φ D) W₁ (Code.Twin φ D J)
          (do return code ++ (← declareLocals site decl rest))
          (do return code' ++ (← declareLocals site decl' (rest.map (Declarator.relocate φ)))) :=
      ih.bind fun W₂ _ _ hW₂ hafter => .pure ((hcode.mono hW₂).append hafter)
    split
    · exact (inStep_declareArray site decl.ty d).bind fun W₁ _ _ _ hcode => hrest W₁ hcode
    · exact (inStep_declareScalar site decl.ty d).bind fun W₁ _ _ _ hcode => hrest W₁ hcode

theorem inStep_lowerDeclaration (site : Site) (decl : Declaration) :
    InStep φ (Draft.Twin φ D) W (Code.Twin φ D J) (lowerDeclaration site decl)
      (lowerDeclaration site (decl.relocate φ)) := by
  unfold lowerDeclaration
  have hty : (decl.relocate φ).ty = decl.ty := rfl
  rw [hty]
  split
  · exact .lift (agree_at rfl decl.loc)
  · exact inStep_declareLocals site decl (decl.relocate φ) rfl rfl decl.declarators

/-! ## Statements -/

theorem inStep_lowerReturn (site : Site) (argument : Option Expr) (loc : Location) :
    InStep φ (Draft.Twin φ D) W (Code.Twin φ D J) (lowerReturn site argument loc)
      (lowerReturn site (argument.map (Expr.relocate φ)) (φ loc)) := by
  cases argument with
  | none =>
    simp only [Option.map_none, lowerReturn]
    split
    · exact .pure (Code.twin_of_jumps_eq_nil rfl rfl)
    · exact .lift (agree_at rfl loc)
  | some e =>
    simp only [Option.map_some, lowerReturn]
    split
    · exact .lift (agree_at rfl loc)
    · refine (inStep_ofLower (R := Code.Twin φ D J) fun scope scope' hs => ?_).bind
        fun W₁ code code' _ hcode => .pure (hcode.append (Code.twin_of_jumps_eq_nil rfl rfl))
      exact inStep_valueFor site.ret e (inStep_lower hs site.fn e)

theorem inStep_lowerJump (site : Site) {target : LoopLabels → String}
    (ht : ∀ x, loopTargets x.next x.exit (target x)) {outside : Mistake}
    (hm : outside.isCoercion = false) (loc : Location) :
    InStep φ (Draft.Twin φ D) W (Code.Twin φ D site.targets) (lowerJump site target outside loc)
      (lowerJump site target outside (φ loc)) := by
  unfold lowerJump
  split
  next x hx =>
    refine .pure (Code.twin_of_isNeutral rfl fun l hl => ?_)
    obtain rfl := List.mem_singleton.mp hl
    exact ⟨x, hx, ht x⟩
  next => exact .lift (agree_at hm loc)

theorem inStep_located {x y : Build Code} (h : InStep φ (Draft.Twin φ D) W (Code.Twin φ D J) x y)
    (loc : Location) :
    InStep φ (Draft.Twin φ D) W (Code.Twin φ D J) (Code.located loc <$> x)
      (Code.located (φ loc) <$> y) :=
  h.map fun _ _ _ _ hcode => hcode.located loc

theorem inStep_lowerStmts (site : Site) (body : List Stmt)
    (h : ∀ s ∈ body, ∀ W, InStep φ (Draft.Twin φ D) W (Code.Twin φ D site.targets)
      (lowerStmt site s) (lowerStmt site (s.relocate φ))) :
    InStep φ (Draft.Twin φ D) W (Code.Twin φ D site.targets) (lowerStmts site body)
      (lowerStmts site (Stmt.relocateAll φ body)) := by
  induction body generalizing W with
  | nil =>
    rw [Stmt.relocateAll, lowerStmts]
    exact .pure .nil
  | cons s rest ih =>
    rw [Stmt.relocateAll, lowerStmts, lowerStmts]
    refine (h s List.mem_cons_self W).bind fun W₁ code code' _ hcode => ?_
    refine (ih fun s hs => h s (List.mem_cons_of_mem _ hs)).bind
      fun W₂ after after' hW₂ hafter => ?_
    exact .pure ((hcode.mono hW₂).append hafter)

theorem inStep_lowerTest (site : Site) (test : Option Expr) :
    InStep φ (Draft.Twin φ D) W (fun W' => Option.Rel (Code.Twin φ D site.targets W'))
      (lowerTest site test) (lowerTest site (test.map (Expr.relocate φ))) := by
  cases test with
  | none => exact .pure .none
  | some e => exact (inStep_buildExpr site e).map fun _ _ _ _ hcode => .some hcode

theorem inStep_lowerUpdate (site : Site) (update : Option Expr) :
    InStep φ (Draft.Twin φ D) W (Code.Twin φ D site.targets) (lowerUpdate site update)
      (lowerUpdate site (update.map (Expr.relocate φ))) := by
  cases update with
  | none => exact .pure .nil
  | some e =>
    rw [Option.map_some, lowerUpdate, lowerUpdate, Expr.loc_relocate]
    exact inStep_located (inStep_buildEffect site e) e.loc

/-- **Lowering a statement goes in step with lowering it with its places moved.** -/
theorem inStep_lowerStmt (site : Site) (stmt : Stmt) :
    InStep φ (Draft.Twin φ D) W (Code.Twin φ D site.targets) (lowerStmt site stmt)
      (lowerStmt site (stmt.relocate φ)) := by
  -- in a loop, its own labels take the place of those around it
  have hloop {fn : String} {ret : Ty} {nested : Bool} {next exit : String} (l : String)
      (h : (Site.mk fn ret (some ⟨next, exit⟩) nested).targets l) : loopTargets next exit l := by
    obtain ⟨x, ⟨⟩, hl⟩ := h
    exact hl
  induction stmt using Stmt.induct generalizing site W with
  | function name parameters body ret loc =>
    rw [Stmt.relocate, lowerStmt, lowerStmt]
    exact .lift (agree_at rfl loc)
  | declare decl =>
    rw [Stmt.relocate, lowerStmt, lowerStmt]
    exact inStep_located (inStep_lowerDeclaration site decl) decl.loc
  | block body loc ih =>
    rw [Stmt.relocate, lowerStmt, lowerStmt]
    refine inStep_located (inStep_inChild ?_) loc
    exact inStep_lowerStmts site.inner body fun s hs W => ih s hs site.inner
  | branch test consequent alternate loc ihc iha =>
    rw [Stmt.relocate, lowerStmt, lowerStmt]
    refine inStep_located ?_ loc
    refine (inStep_buildExpr site test).bind fun W₁ testCode testCode' _ htest => ?_
    refine (inStep_inChild (ihc _)).bind fun W₂ thenCode thenCode' hW₂ hthen => ?_
    refine inStep_buildLabel site "endif" fun done => ?_
    cases alternate with
    | none => exact .pure (twin_branchCode done (htest.mono hW₂) hthen)
    | some s =>
      refine (inStep_inChild (iha s rfl _)).bind fun W₃ elseCode elseCode' hW₃ helse => ?_
      refine inStep_buildLabel site "else" fun other => .pure ?_
      exact twin_branchElseCode done other (htest.mono (hW₂.trans hW₃)) (hthen.mono hW₃) helse
  | whileLoop test body loc ih =>
    rw [Stmt.relocate, lowerStmt, lowerStmt]
    refine inStep_located ?_ loc
    refine inStep_buildLabel site "while" fun top => inStep_buildLabel site "endwhile" fun exit => ?_
    refine (inStep_buildExpr site test).bind fun W₁ testCode testCode' _ htest => ?_
    refine (inStep_inChild (ih _)).bind fun W₂ bodyCode bodyCode' hW₂ hbody => ?_
    exact .pure (twin_whileCode top exit (htest.mono hW₂) (hbody.widen hloop))
  | doLoop body test loc ih =>
    rw [Stmt.relocate, lowerStmt, lowerStmt]
    refine inStep_located ?_ loc
    refine inStep_buildLabel site "do" fun top => inStep_buildLabel site "test" fun next =>
      inStep_buildLabel site "enddo" fun exit => ?_
    refine (inStep_inChild (ih _)).bind fun W₁ bodyCode bodyCode' _ hbody => ?_
    refine (inStep_buildExpr site test).bind fun W₂ testCode testCode' hW₂ htest => ?_
    exact .pure (twin_doCode top next exit ((hbody.mono hW₂).widen hloop) htest)
  | forLoop init test update body loc ihi ihb =>
    rw [Stmt.relocate, lowerStmt_forLoop, lowerStmt_forLoop]
    refine inStep_located (inStep_inChild ?_) loc
    have hinit : InStep φ (Draft.Twin φ D) W (Code.Twin φ D site.targets)
        (lowerInit site.inner init) (lowerInit site.inner (Stmt.relocateSome φ init)) := by
      cases init with
      | none => exact .pure .nil
      | some s => exact ihi s rfl site.inner
    refine hinit.bind fun W₁ initCode initCode' _ hinitCode => ?_
    refine inStep_buildLabel site "for" fun top => inStep_buildLabel site "next" fun next =>
      inStep_buildLabel site "endfor" fun exit => ?_
    refine (inStep_lowerTest site.inner test).bind fun W₂ testCode testCode' hW₂ htest => ?_
    refine (inStep_inChild (ihb _)).bind fun W₃ bodyCode bodyCode' hW₃ hbody => ?_
    refine (inStep_lowerUpdate site.inner update).bind
      fun W₄ updateCode updateCode' hW₄ hupdate => ?_
    have hW := hW₃.trans hW₄
    refine .pure (twin_forCode top next exit ?_ ?_ ((hbody.mono hW₄).widen hloop) hupdate)
    · exact hinitCode.mono (hW₂.trans hW)
    · cases htest with
      | none => exact .none
      | some htest => exact .some (htest.mono hW)
  | ret argument loc =>
    rw [Stmt.relocate, lowerStmt, lowerStmt]
    exact inStep_located (inStep_lowerReturn site argument loc) loc
  | brk loc =>
    rw [Stmt.relocate, lowerStmt, lowerStmt]
    exact inStep_located (inStep_lowerJump site (fun _ => .inr rfl) rfl loc) loc
  | cont loc =>
    rw [Stmt.relocate, lowerStmt, lowerStmt]
    exact inStep_located (inStep_lowerJump site (fun _ => .inl rfl) rfl loc) loc
  | expr e loc =>
    rw [Stmt.relocate, lowerStmt, lowerStmt]
    exact inStep_located (inStep_buildEffect site e) loc

/-- Every instruction of a statement has a place. -/
theorem sourced_of_lowerStmt {site : Site} {stmt : Stmt} {d d' : Draft} {code : Code}
    (h : lowerStmt site stmt d = .ok (code, d')) : code.Sourced := by
  -- a statement ends by filling in the missing places, whatever it is
  have hfilled {loc : Location} {x : Build Code}
      (hx : (Code.located loc <$> x) d = .ok (code, d')) : code.Sourced := by
    obtain ⟨c, _, -, hc⟩ := stateT_map_eq_ok.mp hx
    cases hc
    exact Code.sourced_located loc c
  cases stmt with
  | function name parameters body ret loc =>
    rw [lowerStmt] at h
    simp [stateT_lift_eq_ok, at_ne_ok] at h
  | forLoop init test update body loc =>
    rw [lowerStmt_forLoop] at h
    exact hfilled h
  | _ =>
    rw [lowerStmt] at h
    exact hfilled h

/-! ## Functions -/

theorem inStep_lowerBody (site : Site) (body : List Stmt) :
    InStep φ (Draft.Twin φ D) W (SourcedTwin φ D site.targets) (lowerBody site body)
      (lowerBody site (Stmt.relocateAll φ body)) := by
  induction body generalizing W with
  | nil => exact .pure ⟨.nil, Code.sourced_nil⟩
  | cons s rest ih =>
    rw [Stmt.relocateAll, lowerBody, lowerBody]
    refine (inStep_lowerStmt site s).returned.bind ?_
    rintro W₁ code code' - ⟨hcode, d, d', hlowered⟩
    have hsourced := sourced_of_lowerStmt hlowered
    refine (inStep_takeReserved (J := site.targets)).bind ?_
    rintro W₂ reserved reserved' hW₂ ⟨hreserved, hrsourced⟩
    refine ih.bind ?_
    rintro W₃ after after' hW₃ ⟨hafter, hasourced⟩
    refine .pure ⟨?_, (hrsourced.append hsourced).append hasourced⟩
    exact ((hreserved.mono hW₃).append (hcode.mono (hW₂.trans hW₃))).append hafter

theorem inStep_declareParams (ty : Ty) (ds : List Declarator) :
    InStep φ (Draft.Twin φ D) W (fun _ _ _ => True) (declareParams ty ds)
      (declareParams ty (ds.map (Declarator.relocate φ))) := by
  induction ds generalizing W with
  | nil => exact .pure trivial
  | cons d rest ih =>
    rw [List.map_cons, declareParams, declareParams]
    -- a parameter takes the same slot in both frames
    have hslot : InStep φ (Draft.Twin φ D) W (fun _ key key' => key = key')
        (fun e => .ok ((e.frame.addParam d.name ty).1,
          { e with frame := (e.frame.addParam d.name ty).2 }))
        (fun e => .ok ((e.frame.addParam d.name ty).1,
          { e with frame := (e.frame.addParam d.name ty).2 })) := by
      intro e e' he
      refine .ok ⟨W, .refl W, ⟨he.supply, ?_, he.reserved, he.sourced, he.scope⟩, ?_⟩
      · simp only [he.frame]
      · simp only [he.frame]
    refine hslot.bind (f := fun key => do
      declareVariable d.name ⟨ty, false, none, none, .frame key⟩ d.loc
      declareParams ty rest) (g := fun key => do
      declareVariable d.name ⟨ty, false, none, none, .frame key⟩ (φ d.loc)
      declareParams ty (rest.map (Declarator.relocate φ))) ?_
    rintro W₁ key _ - rfl
    exact (inStep_declareVariable d.name kept_frame d.loc).bind fun W₂ _ _ _ _ => ih

theorem inStep_declareParameters (decls : List Declaration) :
    InStep φ (Draft.Twin φ D) W (fun _ _ _ => True) (declareParameters decls)
      (declareParameters (decls.map (Declaration.relocate φ))) := by
  induction decls generalizing W with
  | nil => exact .pure trivial
  | cons decl rest ih =>
    exact (inStep_declareParams decl.ty decl.declarators).bind fun W₁ _ _ _ _ => ih

/-- Both compilations of a function start with an empty frame. -/
theorem twin_start {scope scope' : Scope} (hs : scope.Same D scope') (W : Regions) :
    Draft.Twin φ D W (.start scope W.left) (.start scope' W.right) :=
  ⟨⟨rfl, rfl, rfl⟩, rfl, .nil, Code.sourced_nil, hs.child⟩

theorem inStep_draftFunction (f : Function) :
    InStep φ (Draft.Twin φ D) W (SourcedTwin φ D (fun _ => False)) (draftFunction f)
      (draftFunction (f.relocate φ)) := by
  refine (inStep_declareParameters f.parameters).bind fun W₁ _ _ _ _ => ?_
  refine (inStep_lowerBody _ f.body).bind ?_
  rintro W₂ body body' - ⟨hbody, hsourced⟩
  have hbody' : body.Twin φ D (fun _ => False) W₂ body' := hbody.widen fun l hl => by
    obtain ⟨x, hx, -⟩ := hl
    cases hx
  refine .pure ⟨Code.Twin.append (Code.Twin.append (Code.twin_of_jumps_eq_nil rfl rfl) hbody') ?_,
    Code.Sourced.append (Code.Sourced.append ?_ hsourced) (Code.sourced_ofInstrs fun i hi => ?_)⟩
  · exact .ofInstrs (.cons ((Instr.Twin.nullary _).withOrigin f.loc) .nil) rfl
  · exact fun i hi => by cases hi
  · obtain rfl := List.mem_singleton.mp hi
    rfl

/-! ### Addresses in the place of variables -/

theorem liftInternal_bind (x : Except InternalError α) (f : α → Except InternalError β) :
    liftInternal (x >>= f) = liftInternal x >>= fun a => liftInternal (f a) := by
  cases x <;> rfl

theorem agree_mapOperands {f : Operand → Except InternalError Operand}
    (hlabel : ∀ l, f (.label l) = .ok (.label l))
    (hf : ∀ o o', o.Twin D W o' →
      AgreeOver (fun _ => True) φ (Operand.Twin D W) (liftInternal (f o)) (liftInternal (f o')))
    {i i' : Instr} (h : i.Twin φ D W i') :
    AgreeOver (fun _ => True) φ (Instr.Twin φ D W) (liftInternal (i.mapOperands f))
      (liftInternal (i'.mapOperands f)) := by
  have hpart {o o' : Option Operand} (ho : Option.Rel (Operand.Twin D W) o o') :
      AgreeOver (fun _ => True) φ (Option.Rel (Operand.Twin D W)) (liftInternal (o.mapM f))
        (liftInternal (o'.mapM f)) := by
    cases ho with
    | none => exact .ok .none
    | @some p p' hp =>
      have hmap (q : Operand) :
          liftInternal ((some q).mapM f) = liftInternal (f q) >>= fun r => .ok (some r) := by
        cases h : f q <;> simp [liftInternal, h, bind, Except.bind]
      rw [hmap, hmap]
      exact (hf p p' hp).bind fun q q' hq => .ok (.some hq)
  unfold Instr.mapOperands
  -- a jump may go to another label on the other side; no operand is mapped then
  rcases h.dest with hdest | ⟨l, hl, hl', haim⟩
  · rw [liftInternal_bind, liftInternal_bind]
    refine (hpart hdest).bind fun dest dest' hdest => ?_
    rw [liftInternal_bind, liftInternal_bind]
    refine (hpart h.src).bind fun src src' hsrc => ?_
    exact .ok ⟨h.op, h.comment, h.origin, .inl hdest, hsrc⟩
  · have hmap : (some (Operand.label l)).mapM f = .ok (some (.label l)) := by
      simp [hlabel]
    rw [hl, hl', hmap]
    change AgreeOver (fun _ => True) φ _ (liftInternal (i.src.mapM f >>= _))
      (liftInternal (i'.src.mapM f >>= _))
    rw [liftInternal_bind, liftInternal_bind]
    refine (hpart h.src).bind fun src src' hsrc => ?_
    exact .ok ⟨h.op, h.comment, h.origin, .inr ⟨l, rfl, rfl, haim⟩, hsrc⟩

theorem agree_resolve (frame : FrameLayout) (fn : String) {o o' : Operand} (h : o.Twin D W o') :
    AgreeOver (fun _ => True) φ (Operand.Twin D W) (liftInternal (frame.resolve fn o))
      (liftInternal (frame.resolve fn o')) := by
  cases h with
  | cell hl hr => exact .ok (.cell hl hr)
  | @same o hk =>
    cases o with
    | var key index =>
      simp only [FrameLayout.resolve]
      cases frame.offset? key with
      | none => exact AgreeOver.error (e := .internal (.unresolvedVariable fn key)) trivial
      | some offset => exact .ok (.same trivial)
    | _ => exact .ok (.same hk)

theorem agree_resolveLines (frame : FrameLayout) (fn : String) {code code' : Code}
    (h : List.Forall₂ (Line.Twin φ D W) code code') :
    AgreeOver (fun _ => True) φ (List.Forall₂ (Line.Twin φ D W))
      (liftInternal (resolveCode frame fn code)) (liftInternal (resolveCode frame fn code')) := by
  induction h with
  | nil => exact .ok .nil
  | cons hline _ ih =>
    cases hline with
    | label name =>
      rw [resolveCode, resolveCode, liftInternal_bind, liftInternal_bind]
      exact ih.bind fun rest rest' hrest => .ok (List.Forall₂.cons (.label name) hrest)
    | instr hi =>
      rw [resolveCode, resolveCode, liftInternal_bind, liftInternal_bind]
      refine (agree_mapOperands (f := frame.resolve fn) (fun _ => rfl)
        (fun o o' ho => agree_resolve frame fn ho) hi).bind fun j j' hj => ?_
      rw [liftInternal_bind, liftInternal_bind]
      exact ih.bind fun rest rest' hrest => .ok (List.Forall₂.cons (.instr hj) hrest)

/-- Jumps go to the labels that they went to before. -/
theorem jumps_of_resolveCode {frame : FrameLayout} {fn : String} {draft code : Code}
    (h : resolveCode frame fn draft = .ok code) : code.jumps = draft.jumps := by
  -- resolving changes variables only, and no jump goes to a variable
  have hjump {i j : Instr} (hi : i.mapOperands (frame.resolve fn) = .ok j) : j.jump? = i.jump? := by
    simp only [Instr.mapOperands, bind_eq_ok, pure_eq_ok] at hi
    obtain ⟨dest, hdest, src, -, rfl⟩ := hi
    unfold Instr.jump?
    cases hd : i.dest with
    | none =>
      rw [hd] at hdest
      cases hdest
      rfl
    | some o =>
      cases o with
      | var key index =>
        rw [hd] at hdest
        cases hoff : frame.offset? key with
        | none => simp [FrameLayout.resolve, hoff] at hdest
        | some offset =>
          simp only [Option.mapM_some, FrameLayout.resolve, hoff] at hdest
          cases hdest
          cases i.op <;> rfl
      | _ =>
        rw [hd] at hdest
        cases hdest
        rfl
  induction draft generalizing code with
  | nil =>
    cases h
    rfl
  | cons line rest ih =>
    cases line with
    | label name =>
      simp only [resolveCode, bind_eq_ok, pure_eq_ok] at h
      obtain ⟨done, hdone, rfl⟩ := h
      rw [Code.jumps_cons_label, Code.jumps_cons_label, ih hdone]
    | instr i =>
      simp only [resolveCode, bind_eq_ok, pure_eq_ok] at h
      obtain ⟨j, hj, done, hdone, rfl⟩ := h
      rw [Code.jumps_cons_instr, Code.jumps_cons_instr, hjump hj, ih hdone]

theorem agree_resolveCode (frame : FrameLayout) (fn : String) {code code' : Code}
    (h : code.Twin φ D J W code') :
    AgreeOver (fun _ => True) φ (Code.Twin φ D J W) (liftInternal (resolveCode frame fn code))
      (liftInternal (resolveCode frame fn code')) := by
  refine (agree_resolveLines frame fn h.lines).returned.mono ?_
  rintro done done' ⟨hlines, hdone, -⟩
  rw [liftInternal_eq_ok] at hdone
  refine ⟨hlines, ?_⟩
  rw [jumps_of_resolveCode hdone, labels_of_resolveCode hdone]
  exact h.closed

/-- Addresses in the place of variables keep the places in the program. -/
theorem sourced_of_resolveCode {frame : FrameLayout} {fn : String} {draft code : Code}
    (h : resolveCode frame fn draft = .ok code) (hd : draft.Sourced) : code.Sourced := by
  induction draft generalizing code with
  | nil =>
    cases h
    exact Code.sourced_nil
  | cons line rest ih =>
    have hrest : Code.Sourced rest := by
      intro i hi
      obtain ⟨l, hl, hi⟩ := List.mem_filterMap.mp hi
      exact hd i (List.mem_filterMap.mpr ⟨l, List.mem_cons_of_mem _ hl, hi⟩)
    cases line with
    | label name =>
      simp only [resolveCode, bind_eq_ok, pure_eq_ok] at h
      obtain ⟨done, hdone, rfl⟩ := h
      have hdone' : done.Sourced := ih hdone hrest
      exact hdone'
    | instr i =>
      simp only [resolveCode, Instr.mapOperands, bind_eq_ok, pure_eq_ok] at h
      obtain ⟨j, ⟨dest, -, src, -, rfl⟩, done, hdone, rfl⟩ := h
      intro k hk
      rcases List.mem_cons.mp hk with rfl | hk
      · exact hd i List.mem_cons_self
      · exact ih hdone hrest k hk

/-- Compiled functions that correspond: they have one name, result and frame. -/
structure CompiledFunction.Twin (φ : Location → Location) (D : Anchors) (W : Regions)
    (f f' : CompiledFunction) : Prop where
  name : f'.name = f.name
  ret : f'.ret = f.ret
  frame : f'.frame = f.frame
  code : f.code.Twin φ D (fun _ => False) W f'.code
  sourced : f.code.Sourced

theorem CompiledFunction.Twin.extend {W' : Regions} {f f' : CompiledFunction}
    (h : f.Twin φ D W f') (hl : W.left.Extends W'.left) (hr : W.right.Extends W'.right) :
    f.Twin φ D W' f' :=
  ⟨h.name, h.ret, h.frame, h.code.extend hl hr, h.sourced⟩

/-- **Compiling a function agrees with compiling it with its places moved**, and both regions grow
by the same scratch cells. -/
theorem agree_compileFunction {scope scope' : Scope} (hs : scope.Same D scope') (f : Function) :
    AgreeOver (fun _ => True) φ (fun r r' => ∃ W', W.Grows W' ∧ r.1.Twin φ D W' r'.1 ∧
        r.2 = W'.left ∧ r'.2 = W'.right)
      (compileFunction scope W.left f) (compileFunction scope' W.right (f.relocate φ)) := by
  refine (inStep_draftFunction f _ _ (twin_start hs W)).widen.bind ?_
  rintro ⟨code, d⟩ ⟨code', d'⟩ ⟨W', hW, hd, hcode, hsourced⟩
  dsimp only at hd hcode hsourced ⊢
  rw [hd.frame]
  refine (agree_resolveCode d.frame f.name hcode).returned.bind ?_
  rintro done done' ⟨hdone, hresolved, -⟩
  have hplaces := sourced_of_resolveCode (liftInternal_eq_ok.mp hresolved) hsourced
  exact .ok ⟨W', hW, ⟨rfl, rfl, rfl, hdone, hplaces⟩, hd.supply.left, hd.supply.right⟩

/-! ### Signatures -/

theorem agree_declaratorTypes (decl decl' : Declaration) (hty : decl'.ty = decl.ty)
    (harray : decl'.isArray = decl.isArray) (ds : List Declarator) :
    Agree φ (fun tys tys' => tys = tys') (declaratorTypes decl ds)
      (declaratorTypes decl' (ds.map (Declarator.relocate φ))) := by
  induction ds with
  | nil => exact .ok rfl
  | cons d rest ih =>
    have hinit : (d.relocate φ).initializer.isSome = d.initializer.isSome := by
      simp [Declarator.relocate]
    rw [List.map_cons, declaratorTypes, declaratorTypes, hty, harray, hinit]
    split
    · exact agree_at rfl d.loc
    · split
      · exact agree_at rfl d.loc
      · refine ih.bind ?_
        rintro tys _ rfl
        exact .ok rfl

theorem agree_declarationTypes (decls : List Declaration) :
    Agree φ (fun tys tys' => tys = tys') (declarationTypes decls)
      (declarationTypes (decls.map (Declaration.relocate φ))) := by
  induction decls with
  | nil => exact .ok rfl
  | cons decl rest ih =>
    have hty : (decl.relocate φ).ty = decl.ty := rfl
    rw [List.map_cons, declarationTypes, declarationTypes, hty]
    split
    · exact agree_at rfl decl.loc
    · refine (agree_declaratorTypes decl (decl.relocate φ) rfl rfl decl.declarators).bind ?_
      rintro tys _ rfl
      refine ih.bind ?_
      rintro tys' _ rfl
      exact .ok rfl

theorem agree_parameterTypes (f : Function) :
    Agree φ (fun tys tys' => tys = tys') (parameterTypes f) (parameterTypes (f.relocate φ)) := by
  have hname : (f.relocate φ).name = f.name := rfl
  have hempty : (f.relocate φ).parameters.isEmpty = f.parameters.isEmpty := by
    simp [Function.relocate]
  unfold parameterTypes
  rw [hname, hempty]
  split
  · exact agree_at rfl f.loc
  · exact agree_declarationTypes f.parameters

end Stepwise.Lowering
