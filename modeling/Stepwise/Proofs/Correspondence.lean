import Mathlib
import Stepwise.Proofs.Linkage
import Stepwise.Proofs.Mistakes

/-!
# Two compilations side by side

The same text may be compiled twice: with its places moved, or with a global region that was laid
out in another order. The two results then correspond. They succeed or fail together, a mistake is
found at the moved place, and the two codes differ in the places and in the offsets of scratch cells
alone.

The correspondence is a relation between results, seen from a pair of global regions. Both regions
grow together while code is generated: where one compilation asks for the scratch cell of a type, so
does the other.

## Main definitions

* `Expr.relocate`, `Stmt.relocate`, `Program.relocate`: a tree with its places moved
* `AgreeOver`, `Agree`: two results that succeed or fail together
* `Regions`: two global regions, `Regions.Grows`: growth by the same scratch cells
* `Instr.Twin`, `Code.Twin`: code that corresponds
* `Code.Sourced`: code in which every instruction has a place
* `Scope.Same`: scopes in which names mean the same
* `InStep`: two computations with a state that go in step

## Main results

* `InStep.bind`: computations in step may be put one after the other
* `Code.Twin.located`: filling in the missing places keeps the correspondence
-/

namespace Stepwise

/-! ## Trees with their places moved -/

mutual

/-- The expression with every place moved. -/
def Expr.relocate (φ : Location → Location) : Expr → Expr
  | .literal v loc => .literal v (φ loc)
  | .ident name loc => .ident name (φ loc)
  | .binary op left right loc => .binary op (left.relocate φ) (right.relocate φ) (φ loc)
  | .unary op argument prefixed loc => .unary op (argument.relocate φ) prefixed (φ loc)
  | .assign left right loc => .assign (left.relocate φ) (right.relocate φ) (φ loc)
  | .call callee args loc => .call (callee.relocate φ) (Expr.relocateAll φ args) (φ loc)
  | .member base index loc => .member (base.relocate φ) (index.relocate φ) (φ loc)

/-- The expressions with every place moved. -/
def Expr.relocateAll (φ : Location → Location) : List Expr → List Expr
  | [] => []
  | e :: rest => e.relocate φ :: Expr.relocateAll φ rest

end

/-- The declarator with every place moved. -/
def Declarator.relocate (φ : Location → Location) (d : Declarator) : Declarator :=
  { d with initializer := d.initializer.map (Expr.relocate φ), loc := φ d.loc }

/-- The declaration with every place moved. -/
def Declaration.relocate (φ : Location → Location) (decl : Declaration) : Declaration :=
  { decl with declarators := decl.declarators.map (Declarator.relocate φ), loc := φ decl.loc }

mutual

/-- The statement with every place moved. -/
def Stmt.relocate (φ : Location → Location) : Stmt → Stmt
  | .function name parameters body result loc =>
    .function name (parameters.map (Declaration.relocate φ)) (Stmt.relocateAll φ body) result
      (φ loc)
  | .declare decl => .declare (decl.relocate φ)
  | .block body loc => .block (Stmt.relocateAll φ body) (φ loc)
  | .branch test consequent alternate loc =>
    .branch (test.relocate φ) (consequent.relocate φ) (Stmt.relocateSome φ alternate) (φ loc)
  | .whileLoop test body loc => .whileLoop (test.relocate φ) (body.relocate φ) (φ loc)
  | .doLoop body test loc => .doLoop (body.relocate φ) (test.relocate φ) (φ loc)
  | .forLoop init test update body loc =>
    .forLoop (Stmt.relocateSome φ init) (test.map (Expr.relocate φ))
      (update.map (Expr.relocate φ)) (body.relocate φ) (φ loc)
  | .ret argument loc => .ret (argument.map (Expr.relocate φ)) (φ loc)
  | .brk loc => .brk (φ loc)
  | .cont loc => .cont (φ loc)
  | .expr e loc => .expr (e.relocate φ) (φ loc)

/-- The statements with every place moved. -/
def Stmt.relocateAll (φ : Location → Location) : List Stmt → List Stmt
  | [] => []
  | s :: rest => s.relocate φ :: Stmt.relocateAll φ rest

/-- The optional statement with every place moved. -/
def Stmt.relocateSome (φ : Location → Location) : Option Stmt → Option Stmt
  | none => none
  | some s => some (s.relocate φ)

end

/-- The program with every place moved. -/
def Program.relocate (φ : Location → Location) (program : Program) : Program :=
  ⟨program.statements.map (Stmt.relocate φ)⟩

/-- The function with every place moved. -/
def Function.relocate (φ : Location → Location) (f : Function) : Function where
  name := f.name
  parameters := f.parameters.map (Declaration.relocate φ)
  body := Stmt.relocateAll φ f.body
  ret := f.ret
  loc := φ f.loc

/-- The error with its place moved. An internal error has none. -/
def CompileError.relocate (φ : Location → Location) : CompileError → CompileError
  | .mistake m loc => .mistake m (φ loc)
  | .internal e => .internal e

section Relocate

variable (φ : Location → Location)

@[simp]
theorem Expr.loc_relocate (e : Expr) : (e.relocate φ).loc = φ e.loc := by
  cases e <;> rfl

@[simp]
theorem Expr.length_relocateAll (es : List Expr) :
    (Expr.relocateAll φ es).length = es.length := by
  induction es with
  | nil => rfl
  | cons e rest ih => simp [relocateAll, ih]

theorem Stmt.function?_relocate (s : Stmt) :
    (s.relocate φ).function? = s.function?.map (Function.relocate φ) := by
  cases s <;> rfl

@[simp]
theorem Stmt.loc_relocate (s : Stmt) : (s.relocate φ).loc = φ s.loc := by
  cases s <;> rfl

end Relocate

mutual

/-- Moving every place to itself changes nothing. -/
theorem Expr.relocate_id : (e : Expr) → e.relocate id = e
  | .literal _ _ | .ident _ _ => rfl
  | .binary _ left right _ => by
    rw [relocate, relocate_id left, relocate_id right, id]
  | .unary _ argument _ _ => by rw [relocate, relocate_id argument, id]
  | .assign left right _ => by rw [relocate, relocate_id left, relocate_id right, id]
  | .call callee args _ => by rw [relocate, relocate_id callee, relocateAll_id args, id]
  | .member base index _ => by rw [relocate, relocate_id base, relocate_id index, id]

@[inherit_doc Expr.relocate_id]
theorem Expr.relocateAll_id : (es : List Expr) → Expr.relocateAll id es = es
  | [] => rfl
  | e :: rest => by rw [relocateAll, relocate_id e, relocateAll_id rest]

end

theorem Declarator.relocate_id (d : Declarator) : d.relocate id = d := by
  have h : Expr.relocate id = id := funext Expr.relocate_id
  simp [relocate, h]

theorem Declaration.relocate_id (decl : Declaration) : decl.relocate id = decl := by
  have h : Declarator.relocate id = id := funext Declarator.relocate_id
  simp [relocate, h]

mutual

@[inherit_doc Expr.relocate_id]
theorem Stmt.relocate_id : (s : Stmt) → s.relocate id = s
  | .function name parameters body result loc => by
    have h : Declaration.relocate id = id := funext Declaration.relocate_id
    rw [relocate, h, List.map_id, relocateAll_id body, id]
  | .declare decl => by rw [relocate, decl.relocate_id]
  | .block body loc => by rw [relocate, relocateAll_id body, id]
  | .branch test consequent alternate loc => by
    rw [relocate, test.relocate_id, relocate_id consequent, relocateSome_id alternate, id]
  | .whileLoop test body loc => by rw [relocate, test.relocate_id, relocate_id body, id]
  | .doLoop body test loc => by rw [relocate, test.relocate_id, relocate_id body, id]
  | .forLoop init test update body loc => by
    have h : Expr.relocate id = id := funext Expr.relocate_id
    rw [relocate, relocateSome_id init, relocate_id body, h, Option.map_id, id, id, id]
  | .ret argument loc => by
    have h : Expr.relocate id = id := funext Expr.relocate_id
    rw [relocate, h, Option.map_id, id, id]
  | .brk _ | .cont _ => rfl
  | .expr e loc => by rw [relocate, e.relocate_id, id]

@[inherit_doc Expr.relocate_id]
theorem Stmt.relocateAll_id : (ss : List Stmt) → Stmt.relocateAll id ss = ss
  | [] => rfl
  | s :: rest => by rw [relocateAll, relocate_id s, relocateAll_id rest]

@[inherit_doc Expr.relocate_id]
theorem Stmt.relocateSome_id : (o : Option Stmt) → Stmt.relocateSome id o = o
  | none => rfl
  | some s => by rw [relocateSome, relocate_id s]

end

theorem Function.relocate_id (f : Function) : f.relocate id = f := by
  have h : Declaration.relocate id = id := funext Declaration.relocate_id
  rw [relocate, h, List.map_id, Stmt.relocateAll_id, id]

/-! ## Results that agree -/

/-- Two results that succeed together, with related values, or fail together, with the same error at
the moved place, one of those in `E`. -/
inductive AgreeOver {α β : Type} (E : CompileError → Prop) (φ : Location → Location)
    (R : α → β → Prop) : Except CompileError α → Except CompileError β → Prop
  | ok {a : α} {b : β} : R a b → AgreeOver E φ R (.ok a) (.ok b)
  | error {e : CompileError} : E e → AgreeOver E φ R (.error e) (.error (e.relocate φ))

/-- Two results that agree, and fail only over a mistake of the program. -/
abbrev Agree {α β : Type} (φ : Location → Location) (R : α → β → Prop)
    (x : Except CompileError α) (y : Except CompileError β) : Prop :=
  AgreeOver CompileError.IsMistake φ R x y

section Agree

variable {α β γ δ : Type} {E : CompileError → Prop} {φ : Location → Location}

variable {x : Except CompileError α} {y : Except CompileError β}

namespace AgreeOver

theorem mono {R S : α → β → Prop} (h : AgreeOver E φ R x y) (hRS : ∀ a b, R a b → S a b) :
    AgreeOver E φ S x y := by
  cases h with
  | ok hr => exact .ok (hRS _ _ hr)
  | error he => exact .error he

/-- Results that agree may be used by computations that agree on related values. -/
theorem bind {R : α → β → Prop} {S : γ → δ → Prop} {f : α → Except CompileError γ}
    {g : β → Except CompileError δ} (h : AgreeOver E φ R x y)
    (hfg : ∀ a b, R a b → AgreeOver E φ S (f a) (g b)) : AgreeOver E φ S (x >>= f) (y >>= g) := by
  cases h with
  | ok hr => exact hfg _ _ hr
  | error he => exact .error he

theorem map {R : α → β → Prop} {S : γ → δ → Prop} {f : α → γ} {g : β → δ}
    (h : AgreeOver E φ R x y) (hfg : ∀ a b, R a b → S (f a) (g b)) :
    AgreeOver E φ S (f <$> x) (g <$> y) := by
  cases h with
  | ok hr => exact .ok (hfg _ _ hr)
  | error he => exact .error he

/-- What one of two results that agree returns, the other one matches. -/
theorem exists_of_ok {R : α → β → Prop} {a : α} (h : AgreeOver E φ R x y) (hx : x = .ok a) :
    ∃ b, y = .ok b ∧ R a b := by
  cases h with
  | ok hr =>
    cases hx
    exact ⟨_, rfl, hr⟩
  | error _ => cases hx

/-- Related values are those that the two results return. -/
theorem returned {R : α → β → Prop} (h : AgreeOver E φ R x y) :
    AgreeOver E φ (fun a b => R a b ∧ x = .ok a ∧ y = .ok b) x y := by
  cases h with
  | ok hr => exact .ok ⟨hr, rfl, rfl⟩
  | error he => exact .error he

/-- Results that agree over some errors agree over any. -/
theorem widen {R : α → β → Prop} (h : AgreeOver E φ R x y) :
    AgreeOver (fun _ => True) φ R x y := by
  cases h with
  | ok hr => exact .ok hr
  | error _ => exact .error trivial

end AgreeOver

theorem Agree.onlyMistakes {R : α → β → Prop} (h : Agree φ R x y) : OnlyMistakes x := by
  cases h with
  | ok _ => exact onlyMistakes_ok _
  | error he =>
    rintro _ ⟨⟩
    exact he

/-- The same mistake is found at the moved place. -/
theorem agree_at {R : α → β → Prop} {m : Mistake} (hm : m.isCoercion = false) (loc : Location) :
    Agree φ R (m.at loc) (m.at (φ loc)) := AgreeOver.error ⟨m, loc, rfl, hm⟩

theorem agree_locate (loc : Location) {x : Except Mistake α} (hx : Checks x) :
    Agree φ (fun a b => a = b ∧ x = .ok a) (Mistake.locate loc x) (Mistake.locate (φ loc) x) := by
  cases x with
  | ok a => exact .ok ⟨rfl, rfl⟩
  | error m => exact agree_at (hx m rfl) loc

theorem agree_constEval (loc : Location) (x : Except ArithmeticError α) :
    Agree φ (fun a b => a = b) (constEval loc x) (constEval (φ loc) x) := by
  cases x with
  | ok a => exact .ok rfl
  | error e => exact agree_at rfl loc

end Agree

/-! ## Two global regions -/

/-- The region after the scratch cells of several types were asked for in turn. -/
def GlobalLayout.drawAll (g : GlobalLayout) (tys : List Ty) : GlobalLayout :=
  tys.foldl (fun g ty => (g.castCell ty).2) g

theorem GlobalLayout.drawAll_append (g : GlobalLayout) (tys tys' : List Ty) :
    g.drawAll (tys ++ tys') = (g.drawAll tys).drawAll tys' := List.foldl_append

theorem GlobalLayout.extends_drawAll (g : GlobalLayout) (tys : List Ty) :
    g.Extends (g.drawAll tys) := by
  induction tys generalizing g with
  | nil => exact .refl g
  | cons ty rest ih => exact (g.extends_castCell ty).trans (ih _)

/-- The global regions of two compilations. -/
structure Regions where
  left : GlobalLayout
  right : GlobalLayout

namespace Regions

/-- Both regions after the scratch cells of several types were asked for in turn. -/
def drawAll (W : Regions) (tys : List Ty) : Regions := ⟨W.left.drawAll tys, W.right.drawAll tys⟩

/-- Both regions have grown, by the scratch cells of the same types in the same order. -/
def Grows (W W' : Regions) : Prop := ∃ tys, W' = W.drawAll tys

theorem Grows.refl (W : Regions) : W.Grows W := ⟨[], rfl⟩

theorem Grows.trans {W W' W'' : Regions} (h : W.Grows W') (h' : W'.Grows W'') : W.Grows W'' := by
  obtain ⟨tys, rfl⟩ := h
  obtain ⟨tys', rfl⟩ := h'
  refine ⟨tys ++ tys', ?_⟩
  simp only [drawAll, GlobalLayout.drawAll_append]

theorem grows_draw (W : Regions) (ty : Ty) :
    W.Grows ⟨(W.left.castCell ty).2, (W.right.castCell ty).2⟩ := ⟨[ty], rfl⟩

theorem Grows.left {W W' : Regions} (h : W.Grows W') : W.left.Extends W'.left := by
  obtain ⟨tys, rfl⟩ := h
  exact W.left.extends_drawAll tys

theorem Grows.right {W W' : Regions} (h : W.Grows W') : W.right.Extends W'.right := by
  obtain ⟨tys, rfl⟩ := h
  exact W.right.extends_drawAll tys

end Regions

/-! ## Code that corresponds -/

/-- What two compilations have in common: the offsets of declared variables and the names of
functions. -/
structure Anchors where
  offset : Int → Prop
  function : String → Prop

/-- All offsets and names. -/
def Anchors.all : Anchors := ⟨fun _ => True, fun _ => True⟩

/-- An operand that stands for the same place in both compilations: if it is a global address, then
that of a declared variable. Labels are apart: they stand for addresses in the code. -/
def Operand.Kept (D : Anchors) : Operand → Prop
  | .ptr ⟨.global, offset, _⟩ => D.offset offset
  | .label _ => False
  | _ => True

/-- Operands that correspond: they are the same, or they are the scratch cells of one type in the
two regions. -/
inductive Operand.Twin (D : Anchors) (W : Regions) : Operand → Operand → Prop
  | same {o : Operand} : o.Kept D → Operand.Twin D W o o
  | cell {ty : Ty} {k k' : Nat} : W.left.casts.lookup ty = some k →
    W.right.casts.lookup ty = some k' →
    Operand.Twin D W ((Slot.global k).operand none) ((Slot.global k').operand none)

/-- Instructions that go to one label: jumps, or calls of a function. -/
def Instr.Aims (D : Anchors) (i i' : Instr) : Prop :=
  ∃ l, i.dest = some (.label l) ∧ i'.dest = some (.label l) ∧
    (i.op = .rjmp ∨ i.op = .call ∧ D.function l)

/-- Instructions that correspond: they differ in the place and in the offsets of scratch cells. -/
structure Instr.Twin (φ : Location → Location) (D : Anchors) (W : Regions) (i i' : Instr) :
    Prop where
  op : i'.op = i.op
  comment : i'.comment = i.comment
  origin : i'.origin = i.origin.map φ
  dest : Option.Rel (Operand.Twin D W) i.dest i'.dest ∨ i.Aims D i'
  src : Option.Rel (Operand.Twin D W) i.src i'.src

/-- Lines that correspond. -/
inductive Line.Twin (φ : Location → Location) (D : Anchors) (W : Regions) : Line → Line → Prop
  | instr {i i' : Instr} : i.Twin φ D W i' → Line.Twin φ D W (.instr i) (.instr i')
  | label (name : String) : Line.Twin φ D W (.label name) (.label name)

/-- The label that a jump goes to. -/
def Instr.jump? (i : Instr) : Option String :=
  match i.op, i.dest with
  | .rjmp, some (.label l) => some l
  | _, _ => none

/-- The labels that the jumps of code go to. -/
def Code.jumps (c : Code) : List String := c.instrs.filterMap Instr.jump?

/-- Codes that correspond line by line, and whose jumps go to labels of their own or to those in
`J`. -/
structure Code.Twin (φ : Location → Location) (D : Anchors) (J : String → Prop) (W : Regions)
    (c c' : Code) : Prop where
  lines : List.Forall₂ (Line.Twin φ D W) c c'
  closed : ∀ l ∈ c.jumps, l ∈ c.labels ∨ J l

namespace Code

@[simp]
theorem jumps_nil : jumps [] = [] := rfl

@[simp]
theorem jumps_cons_label (l : String) (c : Code) : jumps (.label l :: c) = jumps c := rfl

@[simp]
theorem jumps_cons_instr (i : Instr) (c : Code) :
    jumps (.instr i :: c) = i.jump?.toList ++ jumps c := by
  rw [jumps, Code.instrs_cons_instr, List.filterMap_cons]
  cases i.jump? <;> rfl

@[simp]
theorem jumps_append (c d : Code) : jumps (c ++ d) = jumps c ++ jumps d := by
  rw [jumps, Code.instrs_append, List.filterMap_append, jumps, jumps]

@[simp]
theorem jumps_ofInstrs (is : List Instr) : jumps (ofInstrs is) = is.filterMap Instr.jump? := by
  induction is with
  | nil => rfl
  | cons i is ih =>
    change jumps (.instr i :: ofInstrs is) = _
    rw [jumps_cons_instr, ih, List.filterMap_cons]
    cases i.jump? <;> rfl

@[simp]
theorem jumps_located (loc : Location) (c : Code) : jumps (located loc c) = jumps c := by
  have hjump (i : Instr) : (i.located loc).jump? = i.jump? := by
    unfold Instr.located
    split <;> rfl
  induction c with
  | nil => rfl
  | cons line c ih =>
    cases line with
    | label name => exact ih
    | instr i =>
      change jumps (.instr (i.located loc) :: located loc c) = _
      rw [jumps_cons_instr, jumps_cons_instr, hjump, ih]

end Code

namespace Instr

@[simp]
theorem jump?_rjmp (l : String) : (rjmp (.label l)).jump? = some l := rfl

@[simp]
theorem jump?_rjmpIfZero (l : String) (r : Reg) : (rjmpIfZero (.label l) r).jump? = some l := rfl

@[simp]
theorem jump?_push (o : Operand) : (push o).jump? = none := rfl

@[simp]
theorem jump?_pop (o : Operand) : (pop o).jump? = none := rfl

@[simp]
theorem jump?_ldi (r : Reg) (v : Value) : (ldi r v).jump? = none := rfl

end Instr

section Twin

variable {φ : Location → Location} {D : Anchors} {J J' : String → Prop} {W W' : Regions}
  {c c' e e' : Code}

theorem Operand.Twin.reg (r : Reg) : Operand.Twin D W (.reg r) (.reg r) := .same trivial

theorem Operand.Twin.imm (v : Value) : Operand.Twin D W (.imm v) (.imm v) := .same trivial

theorem Operand.Twin.extend {o o' : Operand} (h : o.Twin D W o')
    (hl : W.left.Extends W'.left) (hr : W.right.Extends W'.right) : o.Twin D W' o' := by
  cases h with
  | same hk => exact .same hk
  | cell hk hk' => exact .cell (hl.casts hk) (hr.casts hk')

theorem Instr.Twin.extend {i i' : Instr} (h : i.Twin φ D W i') (hl : W.left.Extends W'.left)
    (hr : W.right.Extends W'.right) : i.Twin φ D W' i' := by
  have hrel {o o' : Option Operand} (ho : Option.Rel (Operand.Twin D W) o o') :
      Option.Rel (Operand.Twin D W') o o' := by
    cases ho with
    | none => exact .none
    | some ho => exact .some (ho.extend hl hr)
  exact ⟨h.op, h.comment, h.origin, h.dest.imp_left hrel, hrel h.src⟩

/-- What corresponds still does when the regions have grown. -/
theorem Code.Twin.extend (h : c.Twin φ D J W c') (hl : W.left.Extends W'.left)
    (hr : W.right.Extends W'.right) : c.Twin φ D J W' c' := by
  refine ⟨List.Forall₂.imp (fun line line' hline => ?_) h.lines, h.closed⟩
  cases hline with
  | instr hi => exact .instr (hi.extend hl hr)
  | label name => exact .label name

theorem Code.Twin.mono (h : c.Twin φ D J W c') (hW : W.Grows W') : c.Twin φ D J W' c' :=
  h.extend hW.left hW.right

/-- Jumps may go to more labels. -/
theorem Code.Twin.widen (h : c.Twin φ D J W c') (hJ : ∀ l, J l → J' l) : c.Twin φ D J' W c' :=
  ⟨h.lines, fun l hl => (h.closed l hl).imp_right (hJ l)⟩

/-- Labels of the code itself need not be allowed for. -/
theorem Code.Twin.close (h : c.Twin φ D (fun l => l ∈ c.labels ∨ J l) W c') : c.Twin φ D J W c' :=
  ⟨h.lines, fun l hl => (h.closed l hl).elim .inl id⟩

theorem Code.Twin.nil : Code.Twin φ D J W [] [] := ⟨List.Forall₂.nil, fun _ hl => by cases hl⟩

theorem Code.Twin.append (h : c.Twin φ D J W c') (he : e.Twin φ D J W e') :
    Code.Twin φ D J W (c ++ e) (c' ++ e') := by
  refine ⟨List.rel_append h.lines he.lines, fun l hl => ?_⟩
  rw [Code.jumps_append] at hl
  rw [Code.labels_append, List.mem_append]
  rcases List.mem_append.mp hl with hl | hl
  · exact (h.closed l hl).imp_left .inl
  · exact (he.closed l hl).imp_left .inr

/-- Instructions that correspond, without jumps among them. -/
theorem Code.Twin.ofInstrs {is is' : List Instr} (h : List.Forall₂ (Instr.Twin φ D W) is is')
    (hj : is.filterMap Instr.jump? = []) :
    (Code.ofInstrs is).Twin φ D J W (Code.ofInstrs is') := by
  refine ⟨?_, fun l hl => ?_⟩
  · clear hj
    induction h with
    | nil => exact .nil
    | cons hi _ ih => exact .cons (.instr hi) ih
  · rw [Code.jumps_ofInstrs, hj] at hl
    cases hl

/-- Filling in the missing places keeps the correspondence. -/
theorem Code.Twin.located (h : c.Twin φ D J W c') (loc : Location) :
    (Code.located loc c).Twin φ D J W (Code.located (φ loc) c') := by
  obtain ⟨hlines, hclosed⟩ := h
  refine ⟨?_, by rwa [Code.jumps_located, Code.labels_located]⟩
  clear hclosed
  induction hlines with
  | nil => exact .nil
  | @cons line line' c c' hline _ ih =>
    refine .cons ?_ ih
    cases hline with
    | label name => exact .label name
    | @instr i i' hi =>
      refine .instr ?_
      have horigin := hi.origin
      unfold Instr.located
      cases ho : i.origin with
      | none =>
        rw [ho, Option.map_none] at horigin
        rw [horigin]
        exact ⟨hi.op, hi.comment, rfl, hi.dest, hi.src⟩
      | some l =>
        rw [ho, Option.map_some] at horigin
        rw [horigin]
        exact ⟨hi.op, hi.comment, by rw [horigin, ho]; rfl, hi.dest, hi.src⟩

theorem Instr.Twin.nullary (op : OpCode) : (Instr.nullary op).Twin φ D W (Instr.nullary op) :=
  ⟨rfl, rfl, rfl, .inl .none, .none⟩

theorem Instr.Twin.unary {o o' : Operand} (op : OpCode) (h : o.Twin D W o') :
    (Instr.unary op o).Twin φ D W (Instr.unary op o') :=
  ⟨rfl, rfl, rfl, .inl (.some h), .none⟩

theorem Instr.Twin.binary {o o' p p' : Operand} (op : OpCode) (ho : o.Twin D W o')
    (hp : p.Twin D W p') : (Instr.binary op o p).Twin φ D W (Instr.binary op o' p') :=
  ⟨rfl, rfl, rfl, .inl (.some ho), .some hp⟩

theorem Instr.Twin.withComment {i i' : Instr} (h : i.Twin φ D W i') (comment : String) :
    (i.withComment comment).Twin φ D W (i'.withComment comment) :=
  ⟨h.op, rfl, h.origin, h.dest, h.src⟩

theorem Instr.Twin.withOrigin {i i' : Instr} (h : i.Twin φ D W i') (loc : Location) :
    (i.withOrigin loc).Twin φ D W (i'.withOrigin (φ loc)) :=
  ⟨h.op, h.comment, rfl, h.dest, h.src⟩

end Twin

/-! ### Code in which every instruction has a place -/

/-- Every instruction has a place in the program. -/
def Code.Sourced (code : Code) : Prop := ∀ i ∈ code.instrs, i.origin.isSome = true

theorem Code.sourced_nil : Code.Sourced [] := fun _ hi => by cases hi

theorem Code.Sourced.append {c e : Code} (hc : c.Sourced) (he : e.Sourced) :
    Code.Sourced (c ++ e) := by
  intro i hi
  rw [Code.instrs, List.filterMap_append] at hi
  rcases List.mem_append.mp hi with hi | hi
  · exact hc i hi
  · exact he i hi

theorem Code.sourced_ofInstrs {is : List Instr} (h : ∀ i ∈ is, i.origin.isSome = true) :
    (Code.ofInstrs is).Sourced := by
  intro i hi
  obtain ⟨line, hline, hi⟩ := List.mem_filterMap.mp hi
  obtain ⟨j, hj, rfl⟩ := List.mem_map.mp hline
  cases hi
  exact h i hj

/-- Filling in the missing places leaves none missing. -/
theorem Code.sourced_located (loc : Location) (code : Code) : (Code.located loc code).Sourced := by
  intro i hi
  obtain ⟨line, hline, hi⟩ := List.mem_filterMap.mp hi
  obtain ⟨old, -, rfl⟩ := List.mem_map.mp hline
  cases old with
  | label name => cases hi
  | instr j =>
    cases hi
    unfold Instr.located
    split
    next l hl => rw [hl]; rfl
    next => rfl

/-! ### Code without places and global addresses -/

/-- Whether an operand is neither a global address nor a label. -/
def Operand.isLocal : Operand → Bool
  | .ptr ⟨.global, _, _⟩ => false
  | .label _ => false
  | _ => true

/-- Whether an instruction has no place and no global address, and a label only to jump to. -/
def Instr.isNeutral (i : Instr) : Bool :=
  i.origin.isNone && i.src.all Operand.isLocal && (i.dest.all Operand.isLocal || i.jump?.isSome)

/-- Whether all instructions of code are so. -/
def Code.isNeutral (code : Code) : Bool := code.instrs.all Instr.isNeutral

section Neutral

variable {φ : Location → Location} {D : Anchors} {J : String → Prop} {W : Regions}

theorem Operand.kept_of_isLocal {o : Operand} (h : o.isLocal = true) : o.Kept D := by
  unfold Kept
  split
  · simp [isLocal] at h
  · simp [isLocal] at h
  · trivial

theorem Instr.aims_of_jump? {i : Instr} (h : i.jump?.isSome = true) : i.Aims D i := by
  unfold jump? at h
  split at h
  next l hop hdest => exact ⟨l, hdest, hdest, .inl hop⟩
  next => cases h

theorem Instr.twin_of_isNeutral {i : Instr} (h : i.isNeutral = true) : i.Twin φ D W i := by
  have hrel {o : Option Operand} (ho : o.all Operand.isLocal = true) :
      Option.Rel (Operand.Twin D W) o o := by
    cases o with
    | none => exact .none
    | some p => exact .some (.same (Operand.kept_of_isLocal ho))
  unfold isNeutral at h
  rw [Bool.and_eq_true, Bool.and_eq_true, Bool.or_eq_true] at h
  obtain ⟨⟨horigin, hsrc⟩, hdest⟩ := h
  rw [Option.isNone_iff_eq_none] at horigin
  exact ⟨rfl, rfl, by rw [horigin]; rfl, hdest.imp hrel aims_of_jump?, hrel hsrc⟩

/-- Code without places and global addresses corresponds to itself. -/
theorem Code.twin_of_isNeutral {code : Code} (h : code.isNeutral = true)
    (hj : ∀ l ∈ code.jumps, J l) : code.Twin φ D J W code := by
  refine ⟨List.forall₂_same.mpr fun line hline => ?_, fun l hl => .inr (hj l hl)⟩
  cases line with
  | label name => exact .label name
  | instr i =>
    have hi := List.all_eq_true.mp h i (List.mem_filterMap.mpr ⟨_, hline, rfl⟩)
    exact .instr (Instr.twin_of_isNeutral hi)

/-- The same for code that does not jump. -/
theorem Code.twin_of_jumps_eq_nil {code : Code} (h : code.isNeutral = true)
    (hj : code.jumps = []) : code.Twin φ D J W code :=
  Code.twin_of_isNeutral h fun l hl => by rw [hj] at hl; cases hl

end Neutral

/-! ### Operators and control structures -/

namespace Snippet

variable {φ : Location → Location} {D : Anchors} {J : String → Prop} {W : Regions}
  {left left' right right' test test' body body' : Code}

@[simp]
theorem jumps_popTest (l : String) : (popTest l).jumps = [l] := rfl

@[simp]
theorem jumps_truthCode (l : TruthLabels) : (truthCode l).jumps = [l.done] := rfl

@[simp]
theorem labels_truthCode (l : TruthLabels) : (truthCode l).labels = [l.yes, l.no, l.done] := rfl

@[simp]
theorem jumps_cons_jumpIfZero (l : String) (c : Code) :
    Code.jumps (jumpIfZero l :: c) = l :: Code.jumps c := rfl

@[simp]
theorem jumps_cons_jump (l : String) (c : Code) :
    Code.jumps (jump l :: c) = l :: Code.jumps c := rfl

@[simp]
theorem labels_cons_jumpIfZero (l : String) (c : Code) :
    Code.labels (jumpIfZero l :: c) = Code.labels c := rfl

@[simp]
theorem labels_cons_jump (l : String) (c : Code) : Code.labels (jump l :: c) = Code.labels c := rfl

theorem twin_binaryCode (op : BinaryOp) (hl : left.Twin φ D J W left')
    (hr : right.Twin φ D J W right') :
    (binaryCode op left right).Twin φ D J W (binaryCode op left' right') := by
  refine ((hl.append hr).append (Code.twin_of_jumps_eq_nil rfl rfl)).append
    (Code.twin_of_jumps_eq_nil ?_ ?_)
  · cases op <;> rfl
  · cases op <;> rfl

theorem twin_unaryCode (op : UnaryOp) (h : left.Twin φ D J W left') :
    (unaryCode op left).Twin φ D J W (unaryCode op left') := by
  refine h.append (Code.twin_of_jumps_eq_nil ?_ ?_)
  · cases op <;> rfl
  · cases op <;> rfl

theorem twin_andCode (l : TruthLabels) (hl : left.Twin φ D J W left')
    (hr : right.Twin φ D J W right') :
    (andCode l left right).Twin φ D J W (andCode l left' right') := by
  -- The jumps between the parts go to the labels at the end.
  refine Code.Twin.close ((((hl.widen fun _ => .inr).append (Code.twin_of_isNeutral rfl ?_)).append
    (hr.widen fun _ => .inr)).append (Code.twin_of_isNeutral rfl ?_) |>.append
    (Code.twin_of_isNeutral rfl ?_))
  all_goals simp [andCode]

theorem twin_orCode (l : TruthLabels) (rhs : String) (hl : left.Twin φ D J W left')
    (hr : right.Twin φ D J W right') :
    (orCode l rhs left right).Twin φ D J W (orCode l rhs left' right') := by
  refine Code.Twin.close (((((hl.widen fun _ => .inr).append
    (Code.twin_of_isNeutral rfl ?_)).append (Code.twin_of_isNeutral rfl ?_)).append
    (hr.widen fun _ => .inr)).append (Code.twin_of_isNeutral rfl ?_) |>.append
    (Code.twin_of_isNeutral rfl ?_))
  all_goals simp [orCode]

theorem twin_conditionCode (ht : test.Twin φ D J W test') :
    (conditionCode test).Twin φ D J W (conditionCode test') :=
  ht.append (Code.twin_of_jumps_eq_nil rfl rfl)

theorem twin_branchCode (done : String) (ht : test.Twin φ D J W test')
    (hb : body.Twin φ D J W body') :
    (branchCode done test body).Twin φ D J W (branchCode done test' body') := by
  refine Code.Twin.close ((((twin_conditionCode ht).widen fun _ => .inr).append
    (Code.twin_of_isNeutral rfl ?_)).append (hb.widen fun _ => .inr) |>.append
    (Code.twin_of_jumps_eq_nil rfl rfl))
  simp [branchCode]

theorem twin_branchElseCode (done other : String) (ht : test.Twin φ D J W test')
    (hl : left.Twin φ D J W left') (hr : right.Twin φ D J W right') :
    (branchElseCode done other test left right).Twin φ D J W
      (branchElseCode done other test' left' right') := by
  refine Code.Twin.close ((((((twin_conditionCode ht).widen fun _ => .inr).append
    (Code.twin_of_isNeutral rfl ?_)).append (hl.widen fun _ => .inr)).append
    (Code.twin_of_isNeutral rfl ?_)).append (hr.widen fun _ => .inr) |>.append
    (Code.twin_of_jumps_eq_nil rfl rfl))
  all_goals simp [branchElseCode]

/-- The labels that the body of a loop may jump to without defining them. -/
def loopTargets (next exit : String) (l : String) : Prop := l = next ∨ l = exit

theorem twin_whileCode (top exit : String) (ht : test.Twin φ D J W test')
    (hb : body.Twin φ D (loopTargets top exit) W body') :
    (whileCode top exit test body).Twin φ D J W (whileCode top exit test' body') := by
  have hbody : body.Twin φ D (fun l => l ∈ (whileCode top exit test body).labels ∨ J l) W body' := by
    refine hb.widen ?_
    rintro l (rfl | rfl)
    all_goals simp [whileCode]
  refine Code.Twin.close (((Code.twin_of_jumps_eq_nil rfl rfl).append
    ((twin_conditionCode ht).widen fun _ => .inr)).append
    (Code.twin_of_isNeutral rfl ?_) |>.append hbody |>.append (Code.twin_of_isNeutral rfl ?_))
  all_goals simp [whileCode]

theorem twin_doCode (top next exit : String)
    (hb : body.Twin φ D (loopTargets next exit) W body') (ht : test.Twin φ D J W test') :
    (doCode top next exit body test).Twin φ D J W (doCode top next exit body' test') := by
  have hbody : body.Twin φ D (fun l => l ∈ (doCode top next exit body test).labels ∨ J l) W
      body' := by
    refine hb.widen ?_
    rintro l (rfl | rfl)
    all_goals simp [doCode]
  refine Code.Twin.close (((Code.twin_of_jumps_eq_nil rfl rfl).append hbody).append
    (Code.twin_of_jumps_eq_nil rfl rfl) |>.append ((twin_conditionCode ht).widen fun _ => .inr)
    |>.append (Code.twin_of_isNeutral rfl ?_))
  simp [doCode]

theorem twin_forCode (top next exit : String) {test test' : Option Code}
    (hi : left.Twin φ D J W left') (ht : Option.Rel (Code.Twin φ D J W) test test')
    (hb : body.Twin φ D (loopTargets next exit) W body') (hu : right.Twin φ D J W right') :
    (forCode top next exit left test body right).Twin φ D J W
      (forCode top next exit left' test' body' right') := by
  have hbody : body.Twin φ D
      (fun l => l ∈ (forCode top next exit left test body right).labels ∨ J l) W body' := by
    refine hb.widen ?_
    rintro l (rfl | rfl)
    all_goals simp [forCode]
  refine Code.Twin.close ((((hi.widen fun _ => .inr).append
    (Code.twin_of_jumps_eq_nil rfl rfl)).append ?_).append hbody |>.append
    (Code.twin_of_jumps_eq_nil rfl rfl) |>.append (hu.widen fun _ => .inr) |>.append
    (Code.twin_of_isNeutral rfl ?_))
  · cases ht with
    | none => exact .nil
    | some ht =>
      refine ((twin_conditionCode ht).widen fun _ => .inr).append (Code.twin_of_isNeutral rfl ?_)
      simp [forCode]
  · simp [forCode]

end Snippet

/-! ## Scopes in which names mean the same -/

/-- What a name means is in common: a global variable lies at a declared offset, and a function of
the program is known by the name. -/
def Symbol.Kept (D : Anchors) (name : String) : Symbol → Prop
  | .variable v => ∀ k : Nat, v.slot = .global k → D.offset k
  | .function f => f.external = false → D.function name

theorem Symbol.kept_all (name : String) (symbol : Symbol) : symbol.Kept .all name := by
  rcases symbol with v | f
  · exact fun _ _ => trivial
  · exact fun _ => trivial

/-- Tables in which every name means the same. -/
def Table.Same (D : Anchors) (t t' : Table Symbol) : Prop :=
  ∀ name, t'.get? name = t.get? name ∧ ∀ symbol, t.get? name = some symbol → symbol.Kept D name

/-- Scopes in which every name means the same. -/
def Scope.Same (D : Anchors) (s s' : Scope) : Prop :=
  List.Forall₂ (Table.Same D) (s.inner :: s.outer) (s'.inner :: s'.outer)

namespace Scope.Same

variable {D : Anchors} {s s' : Scope}

theorem refl (s : Scope) : s.Same .all s :=
  List.forall₂_same.mpr fun _ _ name => ⟨rfl, fun symbol _ => symbol.kept_all name⟩

theorem child (h : s.Same D s') : s.child.Same D s'.child :=
  List.Forall₂.cons (fun _ => ⟨rfl, fun _ hsym => by cases hsym⟩) h

/-- Looking up a name gives the same in both scopes. -/
theorem lookup? (h : s.Same D s') (name : String) :
    s'.lookup? name = s.lookup? name ∧
      ∀ symbol, s.lookup? name = some symbol → symbol.Kept D name := by
  unfold Scope.lookup?
  unfold Scope.Same at h
  generalize s.inner :: s.outer = ts at h
  generalize s'.inner :: s'.outer = ts' at h
  induction h with
  | nil => exact ⟨rfl, fun _ hsym => by cases hsym⟩
  | @cons t t' ts ts' ht _ ih =>
    obtain ⟨heq, hkept⟩ := ht name
    rw [List.findSome?_cons, List.findSome?_cons, heq]
    cases hget : t.get? name with
    | none => exact ih
    | some symbol =>
      refine ⟨rfl, fun _ hsym => ?_⟩
      cases hsym
      exact hkept symbol hget

theorem resolve (h : s.Same D s') (name : String) : s'.resolve name = s.resolve name := by
  rw [Scope.resolve, Scope.resolve, (h.lookup? name).1]

theorem kept_of_resolve (h : s.Same D s') {name : String} {symbol : Symbol}
    (hr : s.resolve name = .ok symbol) : symbol.Kept D name :=
  (h.lookup? name).2 symbol (Scope.resolve_eq_ok.mp hr)

/-- A name may be declared in both scopes or in neither, and then means the same again. -/
theorem declare (h : s.Same D s') {φ : Location → Location} (name : String) {symbol : Symbol}
    (hsym : symbol.Kept D name) (loc : Location) :
    Agree φ (Scope.Same D) (Mistake.locate loc (s.declare name symbol))
      (Mistake.locate (φ loc) (s'.declare name symbol)) := by
  obtain ⟨t, ts⟩ := s
  obtain ⟨t', ts'⟩ := s'
  obtain - | ⟨ht, hts⟩ := h
  unfold Scope.declare Table.contains
  simp only [(ht name).1]
  split
  · exact agree_at rfl loc
  · refine .ok (List.Forall₂.cons (fun k => ?_) hts)
    simp only [Table.get?_insert]
    split
    next heq =>
      refine ⟨rfl, fun _ hk => ?_⟩
      cases hk
      exact heq ▸ hsym
    next => exact ht k

end Scope.Same

/-! ## Computations in step -/

/-- Two computations with a state that go in step from the regions `W` on: started in related states
they agree, and end in related states, with both regions grown in the same way. -/
def InStep {α β σ τ : Type} (φ : Location → Location) (I : Regions → σ → τ → Prop) (W : Regions)
    (R : Regions → α → β → Prop) (x : StateT σ (Except CompileError) α)
    (y : StateT τ (Except CompileError) β) : Prop :=
  ∀ s t, I W s t →
    Agree φ (fun r r' => ∃ W', W.Grows W' ∧ I W' r.2 r'.2 ∧ R W' r.1 r'.1) (x s) (y t)

namespace InStep

variable {α β γ δ σ τ : Type} {φ : Location → Location} {I : Regions → σ → τ → Prop} {W : Regions}
  {R : Regions → α → β → Prop} {S : Regions → γ → δ → Prop}
  {x : StateT σ (Except CompileError) α} {y : StateT τ (Except CompileError) β}

theorem pure {a : α} {b : β} (h : R W a b) :
    InStep φ I W R (Pure.pure a) (Pure.pure b) :=
  fun _ _ hI => .ok ⟨W, .refl W, hI, h⟩

/-- Computations in step may be put one after the other. The second ones start in the regions that
the first ones leave. -/
theorem bind (hx : InStep φ I W R x y) {f : α → StateT σ (Except CompileError) γ}
    {g : β → StateT τ (Except CompileError) δ}
    (hfg : ∀ W' a b, W.Grows W' → R W' a b → InStep φ I W' S (f a) (g b)) :
    InStep φ I W S (x >>= f) (y >>= g) := by
  intro s t hI
  refine (hx s t hI).bind ?_
  rintro ⟨a, s'⟩ ⟨b, t'⟩ ⟨W', hW, hI', hR⟩
  refine (hfg W' a b hW hR s' t' hI').mono ?_
  rintro r r' ⟨W'', hW', hI'', hS⟩
  exact ⟨W'', hW.trans hW', hI'', hS⟩

theorem map (hx : InStep φ I W R x y) {f : α → γ} {g : β → δ}
    (hfg : ∀ W' a b, W.Grows W' → R W' a b → S W' (f a) (g b)) :
    InStep φ I W S (f <$> x) (g <$> y) :=
  hx.bind fun W' a b hW hR => pure (hfg W' a b hW hR)

theorem lift {x : Except CompileError α} {y : Except CompileError β}
    (h : Agree φ (fun a b => R W a b) x y) :
    InStep φ I W R (liftM x : StateT σ (Except CompileError) α)
      (liftM y : StateT τ (Except CompileError) β) :=
  fun _ _ hI => h.bind fun _ _ hR => .ok ⟨W, .refl W, hI, hR⟩

/-- What is computed without a state leaves the regions as they are. -/
theorem liftBind {P : α → β → Prop} {x : Except CompileError α} {y : Except CompileError β}
    (h : Agree φ P x y) {f : α → StateT σ (Except CompileError) γ}
    {g : β → StateT τ (Except CompileError) δ}
    (hfg : ∀ a b, P a b → InStep φ I W S (f a) (g b)) :
    InStep φ I W S (liftM x >>= f) (liftM y >>= g) := by
  intro s t hI
  cases h with
  | ok hP => exact hfg _ _ hP s t hI
  | error he => exact .error he

/-- Related values are those that the first computation returns. -/
theorem returned (h : InStep φ I W R x y) :
    InStep φ I W (fun W' a b => R W' a b ∧ ∃ s s', x s = .ok (a, s')) x y := by
  intro s t hI
  refine (h s t hI).returned.mono ?_
  rintro ⟨a, s'⟩ ⟨b, t'⟩ ⟨⟨W', hW, hI', hR⟩, hx, -⟩
  exact ⟨W', hW, hI', hR, s, s', hx⟩

end InStep

end Stepwise
