import Mathlib
import Stepwise.Proofs.ExprCases

/-!
# How statements are lowered

When lowering a statement succeeds, its parts have been lowered in turn, each in the draft that the
part before it left, and its code is put together from theirs. As for expressions, the forms are
listed once.

## Main definitions

* `Initialized`, `Declared`: the first value of a variable, and the variable itself
* `LoweredStmt`: the forms of a lowered statement

## Main results

* `Stmt.induct`: induction on statements, through lists and optional parts
* `loweredStmt_of_lowerStmt`: a success is one of the forms
-/

namespace Stepwise

/-- Induction on statements. -/
theorem Stmt.induct {P : Stmt → Prop}
    (function : ∀ name parameters body ret loc, P (.function name parameters body ret loc))
    (declare : ∀ decl, P (.declare decl))
    (block : ∀ body loc, (∀ s ∈ body, P s) → P (.block body loc))
    (branch : ∀ test consequent alternate loc, P consequent → (∀ s ∈ alternate, P s) →
      P (.branch test consequent alternate loc))
    (whileLoop : ∀ test body loc, P body → P (.whileLoop test body loc))
    (doLoop : ∀ body test loc, P body → P (.doLoop body test loc))
    (forLoop : ∀ init test update body loc, (∀ s ∈ init, P s) → P body →
      P (.forLoop init test update body loc))
    (ret : ∀ argument loc, P (.ret argument loc))
    (brk : ∀ loc, P (.brk loc)) (cont : ∀ loc, P (.cont loc))
    (expr : ∀ e loc, P (.expr e loc)) (s : Stmt) : P s := by
  refine @Stmt.rec P (fun ss => ∀ s ∈ ss, P s) (fun o => ∀ s ∈ o, P s) ?_ declare block branch
    whileLoop doLoop forLoop ret brk cont expr ?_ ?_ ?_ ?_ s
  · exact fun name parameters body ret loc _ => function name parameters body ret loc
  · simp
  · exact fun s ss hs hss => List.forall_mem_cons.mpr ⟨hs, hss⟩
  · simp
  · rintro s hs _ ⟨⟩
    exact hs

end Stepwise

namespace Stepwise.Lowering

open Snippet

/-! ## Drafts -/

namespace Draft

/-- The draft with another supply. -/
def withSupply (d : Draft) (s : Supply) : Draft := { d with supply := s }

/-- The draft after so many labels were given out. -/
def withLabels (d : Draft) (k : Nat) : Draft := d.withSupply (d.supply.withLabels k)

/-- The draft in a scope of its own. -/
def inside (d : Draft) : Draft := { d with scope := d.scope.child }

/-- A draft back in the scope of an earlier one. -/
def backIn (d earlier : Draft) : Draft := { d with scope := earlier.scope }

end Draft

/-- The place of the parts of a statement. -/
def Site.inner (site : Site) : Site := { site with nested := true }

/-- The place of the body of a loop. -/
def Site.inLoop (site : Site) (next exit : String) : Site :=
  { site with nested := true, loop := some ⟨next, exit⟩ }

variable {d d' : Draft} {site : Site} {r : Code × Draft} {loc : Location} {dr : Declarator}
  {code : Code} {decl : Declaration} {stmt : Stmt} {tys : List Ty}

theorem ofLower_eq_ok {α : Type} {f : Scope → Lower α} {r : α × Draft} :
    Build.ofLower f d = .ok r ↔
      ∃ a s, f d.scope d.supply = .ok (a, s) ∧ (a, d.withSupply s) = r := by
  simp only [Build.ofLower, bind_eq_ok, pure_eq_ok, Prod.exists, Draft.withSupply]

theorem inChild_eq_ok {α : Type} {x : Build α} {r : α × Draft} :
    inChild x d = .ok r ↔ ∃ a d', x d.inside = .ok (a, d') ∧ (a, d'.backIn d) = r := by
  simp only [inChild, bind_eq_ok, pure_eq_ok, Prod.exists, Draft.inside, Draft.backIn]

theorem buildLabel_eq_ok {kind : String} {r : String × Draft} :
    buildLabel site kind d = .ok r ↔
      (labelName site.fn kind d.supply.labels, d.withLabels 1) = r := by
  show (Except.ok _ : Except CompileError _) = _ ↔ _
  rw [Except.ok.injEq]
  rfl

theorem buildExpr_eq_ok {e : Expr} :
    buildExpr site e d = .ok r ↔ ∃ code ty s,
      lower site.fn d.scope e d.supply = .ok ((code, ty), s) ∧ (code, d.withSupply s) = r := by
  simp only [buildExpr, ofLower_eq_ok, stateT_map_eq_ok, Prod.exists]
  constructor
  · rintro ⟨code, s, ⟨_, ty, _, hl, ⟨⟩⟩, hr⟩
    exact ⟨code, ty, s, hl, hr⟩
  · rintro ⟨code, ty, s, hl, hr⟩
    exact ⟨code, s, ⟨code, ty, s, hl, rfl⟩, hr⟩

/-! ## Declarations -/

/-- How a variable that is not an array gets its first value. -/
inductive Initialized (site : Site) (ty : Ty) (dest : Operand) (d : Draft) (dr : Declarator) :
    Initial → Supply → Prop
  | default : dr.initializer = none → Initialized site ty dest d dr .default d.supply
  | constant {v w : Value} {loc : Location} : dr.initializer = some (.literal v loc) →
    convertConstant ty v loc = .ok w → Initialized site ty dest d dr (.constant w) d.supply
  | computed {init : Expr} {store : Code} {s : Supply} : dr.initializer = some init →
    (∀ v loc, init ≠ .literal v loc) →
    Stored d.scope dest ty (lower site.fn d.scope init) d.supply init store s →
    Initialized site ty dest d dr (.computed store) s

/-- The instruction that reserves the slot of a variable. -/
def slotInstr (ty : Ty) (name : String) (v : Value) : Instr :=
  (Instr.push (.imm v)).withComment (slotComment ty name)

/-- The code that gives a variable its first value in a slot that is there already. -/
def Initial.storeCode (ty : Ty) (dest : Operand) : Initial → Code
  | .default => Code.ofInstrs [.mov dest (.imm (.defaultOf ty))]
  | .constant v => Code.ofInstrs [.mov dest (.imm v)]
  | .computed store => store

/-- The code that reserves the slot of a variable and gives it its first value. -/
def Initial.slotCode (ty : Ty) (name : String) : Initial → Code
  | .default => Code.ofInstrs [slotInstr ty name (.defaultOf ty)]
  | .constant v => Code.ofInstrs [slotInstr ty name v]
  | .computed store => Code.ofInstrs [slotInstr ty name (.defaultOf ty)] ++ store

/-- The key under which a frame takes a new variable, as a slot. -/
def newSlot (d : Draft) (dr : Declarator) : Slot := .frame (d.frame.freshKey dr.name)

/-- The draft after a declaration: a variable is in the frame and in scope, and a slot below the top
level is left to be reserved. -/
def declared (site : Site) (d : Draft) (s : Supply) (ty : Ty) (dr : Declarator)
    (length : Option Nat) (scope : Scope) (slots : Code) : Draft where
  supply := s
  frame := (d.frame.addLocal dr.name ty length).2
  reserved := if site.nested then d.reserved ++ slots else d.reserved
  scope := scope

/-- The forms of a declared variable. -/
inductive Declared (site : Site) (decl : Declaration) (d : Draft) (dr : Declarator) :
    Code → Draft → Prop
  | array {n : Nat} {scope : Scope} : decl.isArray = true → dr.arrayLength = .ok n →
    d.scope.declare dr.name (.variable ⟨decl.ty, true, some n, none, newSlot d dr⟩) = .ok scope →
    Declared site decl d dr (if site.nested then [] else arraySlots decl.ty dr n)
      (declared site d d.supply decl.ty dr (some n) scope (arraySlots decl.ty dr n))
  | scalar {initial : Initial} {s : Supply} {scope : Scope} : decl.isArray = false →
    Initialized site decl.ty ((newSlot d dr).operand none) d dr initial s →
    d.scope.declare dr.name (.variable ⟨decl.ty, false, none, none, newSlot d dr⟩) = .ok scope →
    Declared site decl d dr
      (Code.located dr.loc (if site.nested
        then initial.storeCode decl.ty ((newSlot d dr).operand none)
        else initial.slotCode decl.ty dr.name))
      (declared site d s decl.ty dr none scope
        (Code.ofInstrs [(slotInstr decl.ty dr.name (.defaultOf decl.ty)).withOrigin dr.loc]))

theorem declareVariable_eq_ok {name : String} {v : Variable} {r : Unit × Draft} :
    declareVariable name v loc d = .ok r ↔ ∃ scope, d.scope.declare name (.variable v) = .ok scope ∧
      ((), { d with scope := scope }) = r := by
  simp only [declareVariable, bind_eq_ok, pure_eq_ok, locate_eq_ok]

theorem literalInitial_eq_ok {ty : Ty} {o : Option Value} (h : literalInitial ty dr = .ok o) :
    (∃ v w loc, dr.initializer = some (.literal v loc) ∧ convertConstant ty v loc = .ok w ∧
      o = some w) ∨ ((∀ v loc, dr.initializer ≠ some (.literal v loc)) ∧ o = none) := by
  unfold literalInitial at h
  split at h
  next v loc hi =>
    obtain ⟨w, hw, rfl⟩ := map_eq_ok.mp h
    exact .inl ⟨v, w, loc, hi, hw, rfl⟩
  next hi =>
    cases h
    exact .inr ⟨fun v loc hv => hi v loc hv, rfl⟩

theorem declared_of_declareArray (hArray : decl.isArray = true)
    (h : declareArray site decl.ty dr d = .ok (code, d')) : Declared site decl d dr code d' := by
  simp only [declareArray, stateT_bind_eq_ok, stateT_lift_eq_ok, declareVariable_eq_ok] at h
  obtain ⟨_, _, ⟨n, hn, ⟨⟩⟩, _, _, ⟨⟩, _, _, ⟨scope, hs, ⟨⟩⟩, h⟩ := h
  have hd : Declared site decl d dr _ _ := .array hArray hn hs
  unfold declared at hd
  split at h
  next hnest =>
    simp only [stateT_bind_eq_ok, stateT_pure_eq_ok] at h
    obtain ⟨_, _, ⟨⟩, ⟨⟩⟩ := h
    rwa [if_pos hnest, if_pos hnest] at hd
  next hnest =>
    simp only [stateT_pure_eq_ok] at h
    obtain ⟨⟩ := h
    rwa [if_neg hnest, if_neg hnest] at hd

theorem declared_of_scalarCode {initial : Initial} {s : Supply} {scope : Scope}
    (hScalar : decl.isArray = false)
    (hi : Initialized site decl.ty ((newSlot d dr).operand none) d dr initial s)
    (hs : d.scope.declare dr.name (.variable ⟨decl.ty, false, none, none, newSlot d dr⟩) =
      .ok scope) (h : scalarCode site decl.ty dr.name dr.loc ((newSlot d dr).operand none) initial
      ⟨s, (d.frame.addLocal dr.name decl.ty none).2, d.reserved, scope⟩ = .ok (code, d')) :
    Declared site decl d dr (Code.located dr.loc code) d' := by
  have hd := Declared.scalar hScalar hi hs
  unfold declared at hd
  unfold scalarCode at h
  split at h
  next hnest =>
    simp only [stateT_bind_eq_ok, stateT_pure_eq_ok] at h
    obtain ⟨_, _, ⟨⟩, ⟨⟩⟩ := h
    rw [if_pos hnest, if_pos hnest] at hd
    cases initial <;> exact hd
  next hnest =>
    simp only [stateT_pure_eq_ok] at h
    obtain ⟨⟩ := h
    rw [if_neg hnest, if_neg hnest] at hd
    cases initial <;> exact hd

theorem declared_of_declareScalar (hScalar : decl.isArray = false)
    (h : declareScalar site decl.ty dr d = .ok (code, d')) : Declared site decl d dr code d' := by
  simp only [declareScalar, stateT_bind_eq_ok, stateT_lift_eq_ok] at h
  obtain ⟨_, _, ⟨literal, hl, ⟨⟩⟩, _, _, ⟨⟩, h⟩ := h
  rcases literalInitial_eq_ok hl with ⟨v, w, loc, hi, hw, rfl⟩ | ⟨hi, rfl⟩
  · simp only [stateT_bind_eq_ok, stateT_pure_eq_ok, declareVariable_eq_ok] at h
    obtain ⟨_, _, ⟨⟩, _, _, ⟨scope, hs, ⟨⟩⟩, _, _, hc, ⟨⟩⟩ := h
    exact declared_of_scalarCode hScalar (.constant hi hw) hs hc
  · cases hinit : dr.initializer with
    | none =>
      simp only [hinit, stateT_bind_eq_ok, stateT_pure_eq_ok, declareVariable_eq_ok] at h
      obtain ⟨_, _, ⟨⟩, _, _, ⟨scope, hs, ⟨⟩⟩, _, _, hc, ⟨⟩⟩ := h
      exact declared_of_scalarCode hScalar (.default hinit) hs hc
    | some init =>
      simp only [hinit, stateT_bind_eq_ok, stateT_pure_eq_ok, ofLower_eq_ok,
        declareVariable_eq_ok] at h
      obtain ⟨_, _, ⟨store, s, hst, ⟨⟩⟩, _, _, ⟨⟩, _, _, ⟨scope, hs, ⟨⟩⟩, _, _, hc, ⟨⟩⟩ := h
      have hne (v : Value) (loc : Location) : init ≠ .literal v loc := by
        rintro rfl
        exact hi v loc hinit
      exact declared_of_scalarCode hScalar (.computed hinit hne (stored_of_storeInto hst)) hs hc

theorem declareLocals_cons_eq_ok {rest : List Declarator}
    (h : declareLocals site decl (dr :: rest) d = .ok (code, d')) :
    ∃ here d₁ after, Declared site decl d dr here d₁ ∧
      declareLocals site decl rest d₁ = .ok (after, d') ∧ code = here ++ after := by
  simp only [declareLocals] at h
  split at h
  next ha =>
    simp only [stateT_bind_eq_ok, stateT_pure_eq_ok] at h
    obtain ⟨here, d₁, hhere, after, _, hafter, ⟨⟩⟩ := h
    exact ⟨here, d₁, after, declared_of_declareArray ha hhere, hafter, rfl⟩
  next ha =>
    simp only [stateT_bind_eq_ok, stateT_pure_eq_ok] at h
    obtain ⟨here, d₁, hhere, after, _, hafter, ⟨⟩⟩ := h
    exact ⟨here, d₁, after, declared_of_declareScalar (by simpa using ha) hhere, hafter, rfl⟩

/-- Variables are declared one by one. -/
theorem declareLocals_cons_iff {rest : List Declarator} :
    declareLocals site decl (dr :: rest) d = .ok (code, d') ↔
      ∃ here d₁ after, declareLocals site decl [dr] d = .ok (here, d₁) ∧
        declareLocals site decl rest d₁ = .ok (after, d') ∧ code = here ++ after := by
  by_cases harray : decl.isArray = true
  all_goals
    simp only [declareLocals, harray, if_true, Bool.false_eq_true, if_false, stateT_bind_eq_ok,
      stateT_pure_eq_ok, Prod.mk.injEq]
    constructor
    · rintro ⟨here, d₁, hhere, after, d₂, hafter, rfl, rfl⟩
      exact ⟨here, d₁, after, ⟨here, d₁, hhere, [], d₁, ⟨rfl, rfl⟩, List.append_nil here, rfl⟩,
        hafter, rfl⟩
    · rintro ⟨here, d₁, after, ⟨here', d₂, hhere, _, _, ⟨rfl, rfl⟩, rfl, rfl⟩, hafter, rfl⟩
      exact ⟨here', d₂, hhere, after, d', hafter, by rw [List.append_nil], rfl⟩

/-! ## Statements -/

/-- The optional first part of a loop with a header. -/
inductive LoweredInit (site : Site) (d : Draft) : Option Stmt → Code → Draft → Prop
  | absent : LoweredInit site d none [] d
  | present {s : Stmt} {code : Code} {d' : Draft} : lowerStmt site s d = .ok (code, d') →
    LoweredInit site d (some s) code d'

/-- The optional test of a loop with a header. -/
inductive LoweredTest (fn : String) (scope : Scope) (s : Supply) :
    Option Expr → Option Code → Supply → Prop
  | absent : LoweredTest fn scope s none none s
  | present {e : Expr} {code : Code} {ty : Ty} {s' : Supply} :
    lower fn scope e s = .ok ((code, ty), s') → LoweredTest fn scope s (some e) (some code) s'

/-- The optional last part of a loop with a header. -/
inductive LoweredUpdate (fn : String) (scope : Scope) (s : Supply) :
    Option Expr → Code → Supply → Prop
  | absent : LoweredUpdate fn scope s none [] s
  | present {e : Expr} {code : Code} {s' : Supply} : lowerEffect fn scope e s = .ok (code, s') →
    LoweredUpdate fn scope s (some e) (Code.located e.loc code) s'

/-- The forms of a lowered statement. Its code is given without places. -/
inductive LoweredStmt (site : Site) (d : Draft) : Stmt → Code → Draft → Prop
  | declare {decl : Declaration} {code : Code} {d' : Draft} : decl.ty ≠ .void →
    declareLocals site decl decl.declarators d = .ok (code, d') →
    LoweredStmt site d (.declare decl) code d'
  | block {body : List Stmt} {loc : Location} {code : Code} {d' : Draft} :
    lowerStmts site.inner body d.inside = .ok (code, d') →
    LoweredStmt site d (.block body loc) code (d'.backIn d)
  | branch {test : Expr} {consequent : Stmt} {loc : Location} {testCode thenCode : Code} {ty : Ty}
    {s : Supply} {d' : Draft} : lower site.fn d.scope test d.supply = .ok ((testCode, ty), s) →
    lowerStmt site.inner consequent (d.withSupply s).inside = .ok (thenCode, d') →
    LoweredStmt site d (.branch test consequent none loc)
      (branchCode (labelName site.fn "endif" d'.supply.labels) testCode thenCode)
      ((d'.backIn d).withLabels 1)
  | branchElse {test : Expr} {consequent alternate : Stmt} {loc : Location}
    {testCode thenCode elseCode : Code} {ty : Ty} {s : Supply} {d₁ d' : Draft} :
    lower site.fn d.scope test d.supply = .ok ((testCode, ty), s) →
    lowerStmt site.inner consequent (d.withSupply s).inside = .ok (thenCode, d₁) →
    lowerStmt site.inner alternate ((d₁.backIn d).withLabels 1).inside = .ok (elseCode, d') →
    LoweredStmt site d (.branch test consequent (some alternate) loc)
      (branchElseCode (labelName site.fn "endif" d₁.supply.labels)
        (labelName site.fn "else" d'.supply.labels) testCode thenCode elseCode)
      ((d'.backIn d).withLabels 1)
  | whileLoop {test : Expr} {body : Stmt} {loc : Location} {testCode bodyCode : Code} {ty : Ty}
    {s : Supply} {d' : Draft} :
    lower site.fn d.scope test (d.supply.withLabels 2) = .ok ((testCode, ty), s) →
    lowerStmt (site.inLoop (labelName site.fn "while" d.supply.labels)
      (labelName site.fn "endwhile" (d.supply.labels + 1))) body (d.withSupply s).inside =
      .ok (bodyCode, d') →
    LoweredStmt site d (.whileLoop test body loc)
      (whileCode (labelName site.fn "while" d.supply.labels)
        (labelName site.fn "endwhile" (d.supply.labels + 1)) testCode bodyCode) (d'.backIn d)
  | doLoop {body : Stmt} {test : Expr} {loc : Location} {bodyCode testCode : Code} {ty : Ty}
    {s : Supply} {d' : Draft} :
    lowerStmt (site.inLoop (labelName site.fn "test" (d.supply.labels + 1))
      (labelName site.fn "enddo" (d.supply.labels + 2))) body (d.withLabels 3).inside =
      .ok (bodyCode, d') →
    lower site.fn d.scope test d'.supply = .ok ((testCode, ty), s) →
    LoweredStmt site d (.doLoop body test loc)
      (doCode (labelName site.fn "do" d.supply.labels)
        (labelName site.fn "test" (d.supply.labels + 1))
        (labelName site.fn "enddo" (d.supply.labels + 2)) bodyCode testCode)
      ((d'.backIn d).withSupply s)
  | forLoop {init : Option Stmt} {test update : Option Expr} {body : Stmt} {loc : Location}
    {initCode bodyCode updateCode : Code} {testCode : Option Code} {s s' : Supply}
    {d₁ d' : Draft} : LoweredInit site.inner d.inside init initCode d₁ →
    LoweredTest site.fn d₁.scope (d₁.supply.withLabels 3) test testCode s →
    lowerStmt (site.inLoop (labelName site.fn "next" (d₁.supply.labels + 1))
      (labelName site.fn "endfor" (d₁.supply.labels + 2))) body (d₁.withSupply s).inside =
      .ok (bodyCode, d') →
    LoweredUpdate site.fn d₁.scope d'.supply update updateCode s' →
    LoweredStmt site d (.forLoop init test update body loc)
      (forCode (labelName site.fn "for" d₁.supply.labels)
        (labelName site.fn "next" (d₁.supply.labels + 1))
        (labelName site.fn "endfor" (d₁.supply.labels + 2)) initCode testCode bodyCode updateCode)
      ((d'.backIn d).withSupply s')
  | ret {loc : Location} : site.ret = .void →
    LoweredStmt site d (.ret none loc) (Code.ofInstrs [.ret]) d
  | retValue {e : Expr} {loc : Location} {code : Code} {s : Supply} : site.ret ≠ .void →
    Valued site.ret (lower site.fn d.scope e) d.supply e code s →
    LoweredStmt site d (.ret (some e) loc) (code ++ Code.ofInstrs [.pop rv, .ret]) (d.withSupply s)
  | brk {loc : Location} {l : LoopLabels} : site.loop = some l →
    LoweredStmt site d (.brk loc) [jump l.exit] d
  | cont {loc : Location} {l : LoopLabels} : site.loop = some l →
    LoweredStmt site d (.cont loc) [jump l.next] d
  | expr {e : Expr} {loc : Location} {code : Code} {s : Supply} :
    lowerEffect site.fn d.scope e d.supply = .ok (code, s) →
    LoweredStmt site d (.expr e loc) code (d.withSupply s)

theorem lowerDeclaration_eq_ok :
    lowerDeclaration site decl d = .ok r ↔
      decl.ty ≠ .void ∧ declareLocals site decl decl.declarators d = .ok r := by
  unfold lowerDeclaration
  split
  next h => simp [stateT_lift_eq_ok, at_ne_ok, h]
  next h => simp [h]

theorem loweredStmt_of_lowerReturn {argument : Option Expr}
    (h : lowerReturn site argument loc d = .ok (code, d')) :
    LoweredStmt site d (.ret argument loc) code d' := by
  cases argument with
  | none =>
    simp only [lowerReturn] at h
    split at h
    next hv =>
      simp only [stateT_pure_eq_ok] at h
      obtain ⟨⟩ := h
      exact .ret hv
    · simp [stateT_lift_eq_ok, at_ne_ok] at h
  | some e =>
    simp only [lowerReturn] at h
    split at h
    · simp [stateT_lift_eq_ok, at_ne_ok] at h
    next hv =>
      simp only [stateT_bind_eq_ok, stateT_pure_eq_ok, ofLower_eq_ok] at h
      obtain ⟨_, _, ⟨code, s, hc, ⟨⟩⟩, ⟨⟩⟩ := h
      exact .retValue hv (valued_of_valueFor hc)

theorem lowerJump_eq_ok {target : LoopLabels → String} {outside : Mistake} :
    lowerJump site target outside loc d = .ok r ↔
      ∃ l, site.loop = some l ∧ ([jump (target l)], d) = r := by
  cases h : site.loop with
  | none => simp [lowerJump, h, stateT_lift_eq_ok, at_ne_ok]
  | some l => simp [lowerJump, h, stateT_pure_eq_ok]

/-- The first part of a loop with a header. -/
def lowerInit (site : Site) : Option Stmt → Build Code
  | some s => lowerStmt site s
  | none => pure []

/-- The test of a loop with a header. -/
def lowerTest (site : Site) : Option Expr → Build (Option Code)
  | some e => some <$> buildExpr site e
  | none => pure none

/-- The last part of a loop with a header. -/
def lowerUpdate (site : Site) : Option Expr → Build Code
  | some e => Code.located e.loc <$> buildEffect site e
  | none => pure []

theorem lowerStmt_forLoop (site : Site) (init : Option Stmt) (test update : Option Expr)
    (body : Stmt) (loc : Location) :
    lowerStmt site (.forLoop init test update body loc) = Code.located loc <$> inChild do
      let initCode ← lowerInit site.inner init
      let top ← buildLabel site "for"
      let next ← buildLabel site "next"
      let exit ← buildLabel site "endfor"
      let testCode ← lowerTest site.inner test
      let bodyCode ← inChild (lowerStmt (site.inLoop next exit) body)
      let updateCode ← lowerUpdate site.inner update
      return forCode top next exit initCode testCode bodyCode updateCode := by
  cases init <;> cases test <;> cases update <;>
    simp only [lowerStmt, lowerInit, lowerTest, lowerUpdate] <;> rfl

theorem loweredInit_of_lowerInit {init : Option Stmt} (h : lowerInit site init d = .ok (code, d')) :
    LoweredInit site d init code d' := by
  cases init with
  | none =>
    cases h
    exact .absent
  | some s => exact .present h

theorem loweredTest_of_lowerTest {test : Option Expr} {code : Option Code}
    (h : lowerTest site test d = .ok (code, d')) :
    ∃ s, LoweredTest site.fn d.scope d.supply test code s ∧ d' = d.withSupply s := by
  cases test with
  | none =>
    cases h
    exact ⟨_, .absent, rfl⟩
  | some e =>
    simp only [lowerTest, stateT_map_eq_ok, buildExpr_eq_ok] at h
    obtain ⟨_, _, ⟨c, ty, s, hl, ⟨⟩⟩, ⟨⟩⟩ := h
    exact ⟨s, .present hl, rfl⟩

theorem loweredUpdate_of_lowerUpdate {update : Option Expr}
    (h : lowerUpdate site update d = .ok (code, d')) :
    ∃ s, LoweredUpdate site.fn d.scope d.supply update code s ∧ d' = d.withSupply s := by
  cases update with
  | none =>
    cases h
    exact ⟨_, .absent, rfl⟩
  | some e =>
    simp only [lowerUpdate, stateT_map_eq_ok, buildEffect, ofLower_eq_ok] at h
    obtain ⟨_, _, ⟨c, s, hl, ⟨⟩⟩, ⟨⟩⟩ := h
    exact ⟨s, .present hl, rfl⟩

/-- **A lowered statement has one of the forms**, and each of its instructions has a place. -/
theorem loweredStmt_of_lowerStmt (h : lowerStmt site stmt d = .ok (code, d')) :
    ∃ c, code = Code.located stmt.loc c ∧ LoweredStmt site d stmt c d' := by
  -- the pattern after each simplification lists the actions in the order in which they run
  cases stmt with
  | function name parameters body ret loc =>
    simp [lowerStmt, stateT_lift_eq_ok, at_ne_ok] at h
  | declare decl =>
    simp only [lowerStmt, stateT_map_eq_ok, lowerDeclaration_eq_ok] at h
    obtain ⟨c, _, ⟨hv, hc⟩, ⟨⟩⟩ := h
    exact ⟨c, rfl, .declare hv hc⟩
  | block body loc =>
    simp only [lowerStmt, stateT_map_eq_ok, inChild_eq_ok] at h
    obtain ⟨_, _, ⟨c, d₁, hc, ⟨⟩⟩, ⟨⟩⟩ := h
    exact ⟨_, rfl, .block hc⟩
  | branch test consequent alternate loc =>
    cases alternate with
    | none =>
      simp only [lowerStmt, stateT_map_eq_ok, stateT_bind_eq_ok, stateT_pure_eq_ok,
        buildExpr_eq_ok, inChild_eq_ok, buildLabel_eq_ok] at h
      obtain ⟨c, _, ⟨_, _, ⟨tc, ty, s, ht, ⟨⟩⟩, _, _, ⟨cc, d₁, hc, ⟨⟩⟩, _, _, ⟨⟩, ⟨⟩⟩, ⟨⟩⟩ := h
      have hb : LoweredStmt site d (.branch test consequent none loc) _ _ := .branch ht hc
      exact ⟨_, rfl, hb⟩
    | some a =>
      simp only [lowerStmt, stateT_map_eq_ok, stateT_bind_eq_ok, stateT_pure_eq_ok,
        buildExpr_eq_ok, inChild_eq_ok, buildLabel_eq_ok] at h
      obtain ⟨c, _, ⟨_, _, ⟨tc, ty, s, ht, ⟨⟩⟩, _, _, ⟨cc, d₁, hc, ⟨⟩⟩, _, _, ⟨⟩,
        _, _, ⟨ac, d₂, ha, ⟨⟩⟩, _, _, ⟨⟩, ⟨⟩⟩, ⟨⟩⟩ := h
      have hb : LoweredStmt site d (.branch test consequent (some a) loc) _ _ :=
        .branchElse ht hc ha
      exact ⟨_, rfl, hb⟩
  | whileLoop test body loc =>
    simp only [lowerStmt, stateT_map_eq_ok, stateT_bind_eq_ok, stateT_pure_eq_ok,
      buildExpr_eq_ok, inChild_eq_ok, buildLabel_eq_ok] at h
    obtain ⟨c, _, ⟨_, _, ⟨⟩, _, _, ⟨⟩, _, _, ⟨tc, ty, s, ht, ⟨⟩⟩, _, _, ⟨bc, d₁, hb, ⟨⟩⟩, ⟨⟩⟩,
      ⟨⟩⟩ := h
    exact ⟨_, rfl, .whileLoop ht hb⟩
  | doLoop body test loc =>
    simp only [lowerStmt, stateT_map_eq_ok, stateT_bind_eq_ok, stateT_pure_eq_ok,
      buildExpr_eq_ok, inChild_eq_ok, buildLabel_eq_ok] at h
    obtain ⟨c, _, ⟨_, _, ⟨⟩, _, _, ⟨⟩, _, _, ⟨⟩, _, _, ⟨bc, d₁, hb, ⟨⟩⟩, _, _,
      ⟨tc, ty, s, ht, ⟨⟩⟩, ⟨⟩⟩, ⟨⟩⟩ := h
    exact ⟨_, rfl, .doLoop hb ht⟩
  | forLoop init test update body loc =>
    simp only [lowerStmt_forLoop, stateT_map_eq_ok, inChild_eq_ok, stateT_bind_eq_ok,
      stateT_pure_eq_ok, buildLabel_eq_ok] at h
    obtain ⟨_, _, ⟨_, _, ⟨ic, d₁, hi, _, _, ⟨⟩, _, _, ⟨⟩, _, _, ⟨⟩, tc, d₂, ht, _, _,
      ⟨bc, d₃, hb, ⟨⟩⟩, uc, d₄, hu, ⟨⟩⟩, ⟨⟩⟩, ⟨⟩⟩ := h
    obtain ⟨s, htest, rfl⟩ := loweredTest_of_lowerTest ht
    obtain ⟨s', hupdate, rfl⟩ := loweredUpdate_of_lowerUpdate hu
    have hf : LoweredStmt site d (.forLoop init test update body loc) _ _ :=
      .forLoop (loweredInit_of_lowerInit hi) htest hb hupdate
    exact ⟨_, rfl, hf⟩
  | ret argument loc =>
    simp only [lowerStmt, stateT_map_eq_ok] at h
    obtain ⟨c, _, hr, ⟨⟩⟩ := h
    exact ⟨c, rfl, loweredStmt_of_lowerReturn hr⟩
  | brk loc =>
    simp only [lowerStmt, stateT_map_eq_ok, lowerJump_eq_ok] at h
    obtain ⟨c, _, ⟨l, hl, ⟨⟩⟩, ⟨⟩⟩ := h
    exact ⟨_, rfl, .brk hl⟩
  | cont loc =>
    simp only [lowerStmt, stateT_map_eq_ok, lowerJump_eq_ok] at h
    obtain ⟨c, _, ⟨l, hl, ⟨⟩⟩, ⟨⟩⟩ := h
    exact ⟨_, rfl, .cont hl⟩
  | expr e loc =>
    simp only [lowerStmt, stateT_map_eq_ok, buildEffect, ofLower_eq_ok] at h
    obtain ⟨_, _, ⟨c, s, hc, ⟨⟩⟩, ⟨⟩⟩ := h
    exact ⟨_, rfl, .expr hc⟩

/-- The statements whose code is a part of the code of a statement. -/
inductive Encloses : Stmt → Stmt → Prop
  | inBlock {body : List Stmt} {s : Stmt} {loc : Location} : s ∈ body → Encloses (.block body loc) s
  | consequent {test : Expr} {consequent : Stmt} {alternate : Option Stmt} {loc : Location} :
    Encloses (.branch test consequent alternate loc) consequent
  | alternate {test : Expr} {consequent s : Stmt} {alternate : Option Stmt} {loc : Location} :
    s ∈ alternate → Encloses (.branch test consequent alternate loc) s
  | whileBody {test : Expr} {body : Stmt} {loc : Location} :
    Encloses (.whileLoop test body loc) body
  | doBody {body : Stmt} {test : Expr} {loc : Location} : Encloses (.doLoop body test loc) body
  | forInit {init : Option Stmt} {test update : Option Expr} {body s : Stmt} {loc : Location} :
    s ∈ init → Encloses (.forLoop init test update body loc) s
  | forBody {init : Option Stmt} {test update : Option Expr} {body : Stmt} {loc : Location} :
    Encloses (.forLoop init test update body loc) body

theorem Encloses.sizeOf_lt {s : Stmt} (h : Encloses stmt s) : sizeOf s < sizeOf stmt := by
  cases h with
  | inBlock hs =>
    have hlt := List.sizeOf_lt_of_mem hs
    simp only [Stmt.block.sizeOf_spec]
    omega
  | alternate hs | forInit hs =>
    cases hs
    simp only [Stmt.branch.sizeOf_spec, Stmt.forLoop.sizeOf_spec, Option.some.sizeOf_spec]
    omega
  | _ =>
    simp only [Stmt.branch.sizeOf_spec, Stmt.whileLoop.sizeOf_spec, Stmt.doLoop.sizeOf_spec,
      Stmt.forLoop.sizeOf_spec]
    omega

/-- **Induction on lowered statements**: the forms of the code, given the same for the code of all
parts. -/
@[elab_as_elim]
theorem lowerStmt_induct {P : Site → Draft → Stmt → Code → Draft → Prop}
    (step : ∀ {site d stmt c d'}, lowerStmt site stmt d = .ok (Code.located stmt.loc c, d') →
      LoweredStmt site d stmt c d' →
      (∀ {stmt'}, Encloses stmt stmt' → ∀ ⦃site d code d'⦄,
        lowerStmt site stmt' d = .ok (code, d') → P site d stmt' code d') →
      P site d stmt (Code.located stmt.loc c) d') {site : Site} {d d' : Draft} {stmt : Stmt}
    {code : Code} (h : lowerStmt site stmt d = .ok (code, d')) : P site d stmt code d' := by
  obtain ⟨c, rfl, hc⟩ := loweredStmt_of_lowerStmt h
  exact step h hc fun hpart _ _ _ _ hr => lowerStmt_induct step hr
termination_by sizeOf stmt
decreasing_by exact hpart.sizeOf_lt

theorem lowerStmts_nil_eq_ok : lowerStmts site [] d = .ok (code, d') ↔ code = [] ∧ d' = d := by
  rw [lowerStmts, stateT_pure_eq_ok, Prod.mk.injEq, eq_comm, @eq_comm _ d]

theorem lowerStmts_cons_eq_ok {rest : List Stmt} :
    lowerStmts site (stmt :: rest) d = .ok (code, d') ↔
      ∃ here d₁ after, lowerStmt site stmt d = .ok (here, d₁) ∧
        lowerStmts site rest d₁ = .ok (after, d') ∧ code = here ++ after := by
  simp only [lowerStmts, stateT_bind_eq_ok, stateT_pure_eq_ok]
  constructor
  · rintro ⟨here, d₁, h, after, _, ha, ⟨⟩⟩
    exact ⟨here, d₁, after, h, ha, rfl⟩
  · rintro ⟨here, d₁, after, h, ha, rfl⟩
    exact ⟨here, d₁, h, after, d', ha, rfl⟩

/-- Statements are lowered from where those before them have led. -/
theorem lowerStmts_append_eq_ok {pre rest : List Stmt} {d₁ : Draft} {before : Code}
    (hpre : lowerStmts site pre d = .ok (before, d₁))
    (h : lowerStmts site (pre ++ rest) d = .ok (code, d')) :
    ∃ after, lowerStmts site rest d₁ = .ok (after, d') ∧ code = before ++ after := by
  induction pre generalizing d before code with
  | nil =>
    obtain ⟨rfl, rfl⟩ := lowerStmts_nil_eq_ok.mp hpre
    exact ⟨code, h, rfl⟩
  | cons s pre ih =>
    obtain ⟨here, d₂, after, hhere, hafter, rfl⟩ := lowerStmts_cons_eq_ok.mp hpre
    obtain ⟨here', d₃, after', hhere', hafter', rfl⟩ := lowerStmts_cons_eq_ok.mp h
    cases hhere.symm.trans hhere'
    obtain ⟨tail, htail, rfl⟩ := ih hafter hafter'
    exact ⟨tail, htail, (List.append_assoc _ _ _).symm⟩

/-! ## Function bodies -/

/-- The draft without reservations. -/
def Draft.emptied (d : Draft) : Draft := { d with reserved := [] }

theorem lowerBody_nil_eq_ok : lowerBody site [] d = .ok (code, d') ↔ code = [] ∧ d' = d := by
  rw [lowerBody, stateT_pure_eq_ok, Prod.mk.injEq, eq_comm, @eq_comm _ d]

theorem lowerBody_cons_eq_ok {rest : List Stmt} :
    lowerBody site (stmt :: rest) d = .ok (code, d') ↔
      ∃ here d₁ after, lowerStmt site stmt d = .ok (here, d₁) ∧
        lowerBody site rest d₁.emptied = .ok (after, d') ∧
        code = d₁.reserved ++ here ++ after := by
  simp only [lowerBody, stateT_bind_eq_ok, stateT_pure_eq_ok]
  constructor
  · rintro ⟨here, d₁, h, _, _, ⟨⟩, after, _, ha, ⟨⟩⟩
    exact ⟨here, d₁, after, h, ha, rfl⟩
  · rintro ⟨here, d₁, after, h, ha, rfl⟩
    exact ⟨here, d₁, h, _, _, rfl, after, d', ha, rfl⟩

/-! ## Functions -/

/-- The types and names of parameters. -/
def namedParams (decls : List Declaration) : List (Ty × String) :=
  decls.flatMap fun decl => decl.declarators.map fun dr => (decl.ty, dr.name)

/-- Parameters were added to the frame and the scope one after the other. -/
inductive Bound : Draft → List (Ty × String) → Draft → Prop
  | nil (d : Draft) : Bound d [] d
  | cons {d d' : Draft} {ty : Ty} {name : String} {rest : List (Ty × String)} {scope : Scope} :
    d.scope.declare name (.variable ⟨ty, false, none, none, .frame (d.frame.freshKey name)⟩) =
      .ok scope →
    Bound { d with frame := (d.frame.addParam name ty).2, scope := scope } rest d' →
    Bound d ((ty, name) :: rest) d'

theorem Bound.append {d₁ : Draft} {ps qs : List (Ty × String)} (h : Bound d ps d₁)
    (h' : Bound d₁ qs d') : Bound d (ps ++ qs) d' := by
  induction h with
  | nil => exact h'
  | cons hs _ ih => exact .cons hs (ih h')

theorem bound_of_declareParams {ty : Ty} {drs : List Declarator} {u : Unit}
    (h : declareParams ty drs d = .ok (u, d')) : Bound d (drs.map fun dr => (ty, dr.name)) d' := by
  induction drs generalizing d with
  | nil =>
    cases h
    exact .nil _
  | cons dr rest ih =>
    simp only [declareParams, stateT_bind_eq_ok, declareVariable_eq_ok] at h
    obtain ⟨_, _, ⟨⟩, _, _, ⟨⟩, _, _, ⟨scope, hs, ⟨⟩⟩, h⟩ := h
    exact .cons hs (ih h)

theorem bound_of_declareParameters {decls : List Declaration} {u : Unit}
    (h : declareParameters decls d = .ok (u, d')) : Bound d (namedParams decls) d' := by
  induction decls generalizing d with
  | nil =>
    cases h
    exact .nil _
  | cons decl rest ih =>
    simp only [declareParameters, stateT_bind_eq_ok] at h
    obtain ⟨_, d₁, hd, h⟩ := h
    exact (bound_of_declareParams hd).append (ih h)

theorem declaratorTypes_eq_ok {drs : List Declarator} (h : declaratorTypes decl drs = .ok tys) :
    tys = drs.map fun _ => decl.ty := by
  induction drs generalizing tys with
  | nil =>
    cases h
    rfl
  | cons dr rest ih =>
    simp only [declaratorTypes] at h
    split at h
    · simp [at_ne_ok] at h
    · split at h
      · simp [at_ne_ok] at h
      · simp only [bind_eq_ok, pure_eq_ok] at h
        obtain ⟨rest, hr, rfl⟩ := h
        rw [List.map_cons, ih hr]

theorem declarationTypes_eq_ok {decls : List Declaration} (h : declarationTypes decls = .ok tys) :
    tys = (namedParams decls).map Prod.fst ∧ ∀ ty ∈ tys, ty ≠ .void := by
  induction decls generalizing tys with
  | nil =>
    cases h
    simp [namedParams]
  | cons decl rest ih =>
    simp only [declarationTypes] at h
    split at h
    · simp [at_ne_ok] at h
    next hv =>
      simp only [bind_eq_ok, pure_eq_ok] at h
      obtain ⟨here, hh, after, ha, rfl⟩ := h
      obtain ⟨rfl, hvoid⟩ := ih ha
      obtain rfl := declaratorTypes_eq_ok hh
      refine ⟨by simp [namedParams, Function.comp_def], fun ty hty => ?_⟩
      rcases List.mem_append.mp hty with h | h
      · obtain ⟨_, _, rfl⟩ := List.mem_map.mp h
        exact hv
      · exact hvoid ty h

/-- The types of the parameters of a function are those of its declarations. -/
theorem parameterTypes_eq_ok {f : Function} (h : parameterTypes f = .ok tys) :
    tys = (namedParams f.parameters).map Prod.fst ∧ ∀ ty ∈ tys, ty ≠ .void := by
  unfold parameterTypes at h
  split at h
  · simp [at_ne_ok] at h
  · exact declarationTypes_eq_ok h

/-- The draft in which a function starts. -/
def Draft.start (scope : Scope) (globals : GlobalLayout) : Draft :=
  ⟨⟨0, globals⟩, .empty, [], scope.child⟩

/-- The code of a function around that of its body. -/
def functionCode (f : Function) (body : Code) : Code :=
  [.label f.name] ++ body ++ Code.ofInstrs [Instr.ret.withOrigin f.loc]

/-- A compiled function: its parameters were added, its body lowered, and its variables resolved. -/
theorem compileFunction_eq_ok {scope : Scope} {globals globals' : GlobalLayout} {f : Function}
    {c : CompiledFunction} (h : compileFunction scope globals f = .ok (c, globals')) :
    ∃ d body d' code, Bound (.start scope globals) (namedParams f.parameters) d ∧
      lowerBody ⟨f.name, f.ret, none, false⟩ f.body d = .ok (body, d') ∧
      resolveCode d'.frame f.name (functionCode f body) = .ok code ∧
      c = ⟨f.name, f.ret, code, d'.frame.entries⟩ ∧ globals' = d'.supply.globals := by
  simp only [compileFunction, draftFunction, bind_eq_ok, pure_eq_ok, liftInternal_eq_ok,
    stateT_bind_eq_ok, stateT_pure_eq_ok] at h
  obtain ⟨_, ⟨_, d, hp, body, d', hb, rfl⟩, code, hc, ⟨⟩⟩ := h
  exact ⟨d, body, d', code, bound_of_declareParameters hp, hb, hc, rfl, rfl⟩

end Stepwise.Lowering
