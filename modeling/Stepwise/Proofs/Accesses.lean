import Mathlib
import Stepwise.Proofs.Outline
import Stepwise.Proofs.Pieces

/-!
# Names in programs and operands in code

Each use of a variable or an array in a program becomes an operand of its code. The uses are listed
in the order in which the code has them, each with the outline before it, and the operands of the
code that are in memory are those of the listed names, in the same order. Only the scratch cells are
in memory without a name.

## Main definitions

* `Use`, `Access`: a use of a name, and its place in the text
* `Expr.uses`, `Stmt.accesses`, `Function.accesses`: the uses of names, in the order of the code
* `Code.memory`: the operands of code that are in memory

## Main results

* `readsOnly_lower`: the operands of the code of an expression are those of its names
-/

namespace Stepwise

open Lowering Snippet

/-! ## Uses of names -/

/-- A use of a variable, or of an element of an array if there is an index register. -/
structure Use where
  name : String
  index : Option Reg

namespace Expr

/-- The variable or the element that an expression stands for. -/
def place : Expr → List Use
  | .ident name _ => [⟨name, none⟩]
  | .member (.ident name _) _ _ => [⟨name, some .ix⟩]
  | _ => []

/-- The uses of names in the store of an expression. A name is stored without code of its own. -/
def stored {α : Type} (use : Use → α) (dest computed : List α) : Expr → List α
  | .literal _ _ => dest
  | .ident name _ => dest ++ [use ⟨name, none⟩]
  | _ => computed ++ dest

theorem stored_of_not_isImmediate {α : Type} {use : Use → α} {dest computed : List α} {e : Expr}
    (h : isImmediate e = false) : e.stored use dest computed = computed ++ dest := by
  cases e with
  | literal | ident => cases h
  | _ => rfl

mutual

/-- The uses of names in an expression, in the order of its code. -/
def uses : Expr → List Use
  | .literal _ _ => []
  | .ident name _ => [⟨name, none⟩]
  | .member base index loc => index.uses ++ (Expr.member base index loc).place
  | .binary _ left right _ => left.uses ++ right.uses
  | .unary op argument _ _ =>
    if isStep op then
      (match argument with
        | .member _ index _ => index.uses
        | _ => []) ++ argument.place ++ argument.place
    else argument.uses
  | .assign left right _ =>
    (match left with
      | .member _ index _ => index.uses
      | _ => []) ++ right.stored id left.place right.uses ++ left.place
  | .call _ args _ => usesAll args

/-- The uses of names in arguments. The last argument comes first. -/
def usesAll : List Expr → List Use
  | [] => []
  | arg :: rest => usesAll rest ++ arg.uses

end

/-- The uses of names in the index of an element. -/
def indexUses : Expr → List Use
  | .member _ index _ => index.uses
  | _ => []

/-- The uses of names in an expression whose value is not needed. -/
def effectUses : Expr → List Use
  | .assign left right _ => left.indexUses ++ right.stored id left.place right.uses
  | .unary op argument prefixed loc =>
    if isStep op then argument.indexUses ++ argument.place
    else (Expr.unary op argument prefixed loc).uses
  | e => e.uses

theorem uses_step {op : UnaryOp} (hop : isStep op = true) (argument : Expr) (prefixed : Bool)
    (loc : Location) : (Expr.unary op argument prefixed loc).uses =
      argument.indexUses ++ argument.place ++ argument.place := by
  cases argument <;> simp only [uses, indexUses, hop, if_true]

theorem uses_unary {op : UnaryOp} (hop : isStep op = false) (argument : Expr) (prefixed : Bool)
    (loc : Location) : (Expr.unary op argument prefixed loc).uses = argument.uses := by
  cases argument <;> simp only [uses, hop, Bool.false_eq_true, if_false]

theorem uses_assign (left right : Expr) (loc : Location) :
    (Expr.assign left right loc).uses =
      left.indexUses ++ right.stored id left.place right.uses ++ left.place := by
  cases left <;> simp only [uses, indexUses]

end Expr

/-- A use of a name at a place of the text, given by the outline before it. -/
structure Access where
  before : Outline
  use : Use

/-- The uses of names in giving a variable its first value. A constant is stored only where the slot
is there already. -/
def initialAccesses (nested : Bool) (o : Outline) (self : Access) : Option Expr → List Access
  | none | some (.literal _ _) => if nested then [self] else []
  | some e => e.stored (Access.mk o) [self] (e.uses.map (Access.mk o))

/-- The uses of names in the declaration of a variable, which its initializer does not see. -/
def Declaration.access (decl : Declaration) (nested : Bool) (o : Outline) (dr : Declarator) :
    List Access :=
  if decl.isArray then []
  else
    initialAccesses nested o ⟨o ++ [.bind (.var dr.name (decl.span dr))], dr.name, none⟩
      dr.initializer

/-- The uses of names in the declarations of variables. -/
def Declaration.accesses (decl : Declaration) (nested : Bool) (o : Outline) :
    List Declarator → List Access
  | [] => []
  | dr :: rest => decl.access nested o dr ++
      decl.accesses nested (o ++ [.bind (.var dr.name (decl.span dr))]) rest

/-- The outline of an optional statement. -/
def Stmt.optionOutline : Option Stmt → Outline
  | some s => s.outline
  | none => []

mutual

/-- The uses of names in a statement, in the order of its code. -/
def Stmt.accesses (nested : Bool) (o : Outline) : Stmt → List Access
  | .declare decl => decl.accesses nested o decl.declarators
  | .block body _ => Stmt.accessesAll true (o ++ [.enter]) body
  | .branch test consequent alternate _ =>
    test.uses.map (Access.mk o) ++ consequent.accesses true (o ++ [.enter]) ++ match alternate with
      | some s => s.accesses true (o ++ .enter :: consequent.outline ++ [.leave] ++ [.enter])
      | none => []
  | .whileLoop test body _ => test.uses.map (Access.mk o) ++ body.accesses true (o ++ [.enter])
  | .doLoop body test _ =>
    body.accesses true (o ++ [.enter]) ++
      test.uses.map (Access.mk (o ++ .enter :: body.outline ++ [.leave]))
  | .forLoop init test update body _ =>
    let header := o ++ .enter :: Stmt.optionOutline init
    (match init with
      | some s => s.accesses true (o ++ [.enter])
      | none => []) ++
    (test.elim [] fun e => e.uses.map (Access.mk header)) ++
    body.accesses true (header ++ [.enter]) ++
    (update.elim [] fun e => e.effectUses.map (Access.mk header))
  | .ret argument _ => argument.elim [] fun e => e.uses.map (Access.mk o)
  | .expr e _ => e.effectUses.map (Access.mk o)
  | .function _ _ _ _ _ | .brk _ | .cont _ => []

/-- The uses of names in statements one after the other. -/
def Stmt.accessesAll (nested : Bool) (o : Outline) : List Stmt → List Access
  | [] => []
  | s :: rest => s.accesses nested o ++ Stmt.accessesAll nested (o ++ s.outline) rest

end

/-- The uses of names in a function, in the order of its code. -/
def Function.accesses (f : Function) : List Access := Stmt.accessesAll false f.paramOutline f.body

/-! ## Operands in memory -/

/-- An operand is in memory, and is none of the given scratch cells. -/
def Operand.inMemory (cells : List (Ty × Nat)) : Operand → Bool
  | .var _ _ => true
  | .ptr p => p.base == .frame || p.index.isSome || !cells.any fun cell => (cell.2 : Int) == p.offset
  | _ => false

@[simp]
theorem Operand.inMemory_reg (cells : List (Ty × Nat)) (r : Reg) :
    (Operand.reg r).inMemory cells = false := rfl

@[simp]
theorem Operand.inMemory_imm (cells : List (Ty × Nat)) (v : Value) :
    (Operand.imm v).inMemory cells = false := rfl

/-- The operands of an instruction that are in memory. -/
def Instr.memory (cells : List (Ty × Nat)) (i : Instr) : List Operand :=
  i.operands.filter (Operand.inMemory cells)

/-- The operands of code that are in memory. -/
def Code.memory (cells : List (Ty × Nat)) (code : Code) : List Operand :=
  code.instrs.flatMap (Instr.memory cells)

namespace Code

variable (cells : List (Ty × Nat))

@[simp]
theorem memory_nil : memory cells [] = [] := rfl

@[simp]
theorem memory_append (c d : Code) :
    memory cells (c ++ d) = memory cells c ++ memory cells d := by
  simp [memory]

@[simp]
theorem memory_cons_label (l : String) (c : Code) :
    memory cells (.label l :: c) = memory cells c := rfl

@[simp]
theorem memory_cons_instr (i : Instr) (c : Code) :
    memory cells (.instr i :: c) = i.memory cells ++ memory cells c := rfl

theorem memory_ofInstrs (is : List Instr) :
    memory cells (ofInstrs is) = is.flatMap (Instr.memory cells) := by
  induction is with
  | nil => rfl
  | cons i is ih => rw [ofInstrs_cons, memory_cons_instr, ih, List.flatMap_cons]

@[simp]
theorem memory_located (loc : Location) (c : Code) :
    memory cells (located loc c) = memory cells c := by
  induction c with
  | nil => rfl
  | cons line c ih =>
    cases line with
    | label l => exact ih
    | instr i =>
      have hi : (i.located loc).memory cells = i.memory cells := by
        unfold Instr.located
        split <;> rfl
      rw [located_cons_instr, memory_cons_instr, memory_cons_instr, ih, hi]

end Code

section Snippets

variable (cells : List (Ty × Nat))

@[simp]
theorem memory_applyCode (op : BinaryOp) : (applyCode op).memory cells = [] := by
  cases op <;> rfl

@[simp]
theorem memory_binaryCode (op : BinaryOp) (left right : Code) :
    (binaryCode op left right).memory cells = left.memory cells ++ right.memory cells := by
  have hpop : Code.memory cells (Code.ofInstrs [.pop r1, .pop r0]) = [] := rfl
  rw [binaryCode, Code.memory_append, Code.memory_append, Code.memory_append, hpop,
    memory_applyCode, List.append_nil, List.append_nil]

@[simp]
theorem memory_unaryCode (op : UnaryOp) (argument : Code) :
    (unaryCode op argument).memory cells = argument.memory cells := by
  have htail : ∀ tail : Code, tail.memory cells = [] →
      (argument ++ tail).memory cells = argument.memory cells := by
    intro tail h
    rw [Code.memory_append, h, List.append_nil]
  cases op <;> exact htail _ rfl

@[simp]
theorem memory_popTest (l : String) : (popTest l).memory cells = [] := rfl

@[simp]
theorem memory_truthCode (l : TruthLabels) : (truthCode l).memory cells = [] := rfl

@[simp]
theorem memory_andCode (l : TruthLabels) (left right : Code) :
    (andCode l left right).memory cells = left.memory cells ++ right.memory cells := by
  simp [andCode]

@[simp]
theorem memory_orCode (l : TruthLabels) (rhs : String) (left right : Code) :
    (orCode l rhs left right).memory cells = left.memory cells ++ right.memory cells := by
  have hmid : Code.memory cells [.instr (.rjmp (.label l.yes)), .label rhs] = [] := rfl
  simp only [orCode, Code.memory_append, memory_popTest, memory_truthCode, hmid,
    List.append_nil]

end Snippets

/-! ## Names and operands -/

/-- The operand of a use of a name in a scope. -/
def Scope.Means (scope : Scope) (u : Use) (op : Operand) : Prop :=
  ∃ v, scope.lookup? u.name = some (.variable v) ∧ op = v.slot.operand u.index

/-- The variables of a scope lie apart from scratch cells. -/
def Scope.ClearOf (cells : List (Ty × Nat)) (scope : Scope) : Prop :=
  ∀ name v index, scope.lookup? name = some (.variable v) →
    (v.slot.operand index).inMemory cells = true

section Matched

variable {α : Type} {R : α → Operand → Prop} {final : GlobalLayout} {accs accs' : List α}
  {code code' : Code} {dest : Operand}

/-- The operands of code in memory are those of these uses of names, in order. -/
def Matched (R : α → Operand → Prop) (final : GlobalLayout) (accs : List α) (code : Code) : Prop :=
  List.Forall₂ R accs (code.memory final.casts)

/-- These uses of names have one operand, which is in memory. -/
def Named (R : α → Operand → Prop) (final : GlobalLayout) (accs : List α) (dest : Operand) : Prop :=
  List.Forall₂ R accs [dest] ∧ dest.inMemory final.casts = true

theorem Matched.append (h : Matched R final accs code) (h' : Matched R final accs' code') :
    Matched R final (accs ++ accs') (code ++ code') := by
  unfold Matched
  rw [Code.memory_append]
  exact List.rel_append h h'

theorem Matched.located (h : Matched R final accs code) (loc : Location) :
    Matched R final accs (Code.located loc code) := by
  unfold Matched at h ⊢
  rwa [Code.memory_located]

/-- Code without operands in memory may follow. -/
theorem Matched.then (h : Matched R final accs code) (h' : code'.memory final.casts = []) :
    Matched R final accs (code ++ code') := by
  unfold Matched at h ⊢
  rwa [Code.memory_append, h', List.append_nil]

theorem matched_of_nil (h : code.memory final.casts = []) : Matched R final [] code := by
  unfold Matched
  rw [h]
  exact .nil

theorem Named.matched (h : Named R final accs dest) (hcode : code.memory final.casts = [dest]) :
    Matched R final accs code := by
  unfold Matched
  rw [hcode]
  exact h.1

end Matched

/-! ## Expressions -/

section Reads

variable {α : Type} {R : α → Operand → Prop} {use : Use → α} {final : GlobalLayout} {scope : Scope}
  {fn : String} {s s' : Supply} {e left right : Expr} {code : Code} {dest : Operand} {ty : Ty}
  {accs : List Use} {lowered : Lower (Code × Ty)}

/-- The code that an action makes has the operands of these names. -/
def ReadsOnly (final : GlobalLayout) (scope : Scope) (accs : List Use) (x : Lower (Code × Ty)) :
    Prop :=
  ∀ ⦃s code ty s'⦄, x s = .ok ((code, ty), s') → s'.globals.Extends final →
    Matched scope.Means final accs code

/-- The scratch cells of the finished region are no variables. -/
theorem not_inMemory_cell (h : (s.withCell ty).globals.Extends final) :
    (cellOperand s.globals ty).inMemory final.casts = false := by
  have hmem := GlobalLayout.mem_casts_of_lookup (h.casts (s.globals.lookup_castCell ty))
  simp only [cellOperand, Slot.operand, Operand.inMemory]
  rw [Bool.or_eq_false_iff, Bool.not_eq_false', List.any_eq_true]
  exact ⟨rfl, _, hmem, by simp⟩

attribute [local simp] Instr.memory Instr.operands Instr.push Instr.pop Instr.mov Instr.unary
  Instr.binary Instr.withComment r0 r1 r2 rv ix List.filter_cons

theorem Named.push {accs : List α} (h : Named R final accs dest) :
    Matched R final accs (Code.ofInstrs [.push dest]) := h.matched (by simp [h.2])

theorem Lowering.Stored.matched {daccs caccs : List α}
    (h : Stored scope dest ty lowered s e code s') (hclear : scope.ClearOf final.casts)
    (hname : ∀ u op, scope.Means u op → R (use u) op) (hd : Named R final daccs dest)
    (hl : ∀ ⦃code found s'⦄, lowered s = .ok ((code, found), s') → s'.globals.Extends final →
      Matched R final caccs code) (hx : s'.globals.Extends final) :
    Matched R final (e.stored use daccs caccs) code := by
  cases h with
  | literal => exact hd.matched (by simp [hd.2])
  | ident hsrc =>
    obtain ⟨u, hu, -, rfl, -⟩ := scalarOperand_eq_ok hsrc
    have hboth : List.Forall₂ R (daccs ++ [use ⟨_, none⟩]) ([dest] ++ [u.slot.operand none]) :=
      List.rel_append hd.1 (.cons (hname ⟨_, none⟩ _ ⟨u, hu, rfl⟩) .nil)
    unfold Matched Expr.stored
    simpa [hd.2, hclear _ u none hu] using hboth
  | computed himm hrun =>
    rw [Expr.stored_of_not_isImmediate himm]
    exact (hl hrun hx).append (hd.matched (by simp [hd.2]))

theorem Lowering.Valued.matched (h : Valued ty lowered s e code s')
    (hl : ReadsOnly final scope e.uses lowered) (hx : s'.globals.Extends final) :
    Matched scope.Means final e.uses code := by
  cases h with
  | literal =>
    rw [Expr.uses]
    exact (matched_of_nil (by simp)).located _
  | same hrun => exact hl hrun hx
  | @converted _ _ found s₁ hrun =>
    have hcell := not_inMemory_cell hx
    have hmid := hl hrun ((s₁.globals.extends_castCell ty).trans hx)
    exact hmid.then (by simp [throughCell, hcell])

theorem Lowering.Called.matched {callee : Expr} {argc : Nat} {wanted : Bool}
    {loweredArgs : List Ty → Lower Code}
    (h : Called scope callee argc loweredArgs s wanted code ty s')
    (hl : ∀ params ⦃s args s'⦄, loweredArgs params s = .ok (args, s') → s'.globals.Extends final →
      Matched scope.Means final accs args) (hx : s'.globals.Extends final) :
    Matched scope.Means final accs code := by
  have hcall : ∀ name f, (callCode name f argc).memory final.casts = [] := by
    intro name f
    unfold callCode callTarget
    split <;> rfl
  cases h with
  | effect _ _ hargs => exact (hl _ hargs hx).then (hcall _ _)
  | compiled _ _ hargs => exact ((hl _ hargs hx).then (hcall _ _)).then (by simp)
  | @host _ f _ s₁ _ _ hargs =>
    have hcell := not_inMemory_cell hx
    have hmid := hl _ hargs ((s₁.globals.extends_castCell f.ret).trans hx)
    exact (hmid.then (hcall _ _)).then (by simp [hcell])

theorem readsOnly_lowerIndex
    (ih : ∀ base index loc, e = .member base index loc →
      ReadsOnly final scope index.uses (lower fn scope index)) :
    ReadsOnly final scope e.indexUses (lowerIndex fn scope e) := by
  cases e with
  | member base index loc => exact ih base index loc rfl
  | _ =>
    intro s code ty s' h hx
    cases h
    exact matched_of_nil rfl

theorem matched_lowerArgs {args : List Expr}
    (ih : ∀ arg ∈ args, ReadsOnly final scope arg.uses (lower fn scope arg)) (params : List Ty)
    ⦃s : Supply⦄ ⦃code : Code⦄ ⦃s' : Supply⦄
    (h : lowerArgs fn scope args params s = .ok (code, s')) (hx : s'.globals.Extends final) :
    Matched scope.Means final (Expr.usesAll args) code := by
  induction args generalizing params code s' with
  | nil =>
    obtain ⟨rfl, -⟩ := lowerArgs_nil_eq_ok.mp h
    rw [Expr.usesAll]
    exact matched_of_nil rfl
  | cons arg rest ihargs =>
    obtain ⟨after, s₁, here, hrest, hpassed, rfl⟩ := passed_of_lowerArgs h
    have harg := ih arg List.mem_cons_self
    have hdraws := hpassed.draws (draws_of_lower fn scope arg)
    rw [Expr.usesAll]
    refine Matched.append (ihargs (fun a ha => ih a (List.mem_cons_of_mem _ ha)) _ hrest
      (hdraws.extends.trans hx)) ?_
    generalize params.head? = param at hpassed
    cases hpassed with
    | param hv => exact hv.matched harg hx
    | extra hl => exact harg hl hx

section Clear

variable (hclear : scope.ClearOf final.casts)

include hclear

theorem named_of_scalarOperand {name : String} {loc : Location}
    (h : scalarOperand scope name loc = .ok (dest, ty)) :
    Named scope.Means final (Expr.ident name loc).place dest := by
  obtain ⟨u, hu, -, rfl, -⟩ := scalarOperand_eq_ok h
  exact ⟨.cons ⟨u, hu, rfl⟩ .nil, hclear _ u none hu⟩

theorem named_of_arraySlot {name : String} {loc : Location} {slot : Slot}
    (h : arraySlot scope (.ident name loc) = .ok (slot, ty)) (index : Expr) (loc' : Location) :
    Named scope.Means final (Expr.member (.ident name loc) index loc').place
      (slot.operand (some .ix)) := by
  obtain ⟨name, loc, u, ⟨⟩, hu, -, rfl, -⟩ := arraySlot_eq_ok h
  exact ⟨.cons ⟨u, hu, rfl⟩ .nil, hclear _ u _ hu⟩

theorem Lowering.Assigned.matched {index rhs : Lower (Code × Ty)}
    (h : Assigned scope right index rhs s left code dest ty s')
    (hi : ReadsOnly final scope left.indexUses index) (hr : ReadsOnly final scope accs rhs)
    (hdraws : DrawsOnly rhs) (hx : s'.globals.Extends final) :
    Matched scope.Means final (left.indexUses ++ right.stored id left.place accs) code ∧
      Named scope.Means final left.place dest := by
  cases h with
  | scalar hdest hst =>
    have hnamed := named_of_scalarOperand hclear hdest
    exact ⟨hst.matched hclear (fun _ _ h => h) hnamed (@hr _) hx, hnamed⟩
  | @immediate _ _ loc' i _ _ _ _ _ _ _ hslot hindex _ _ hst =>
    have hnamed := named_of_arraySlot hclear hslot i loc'
    have hcode := hi hindex ((hst.draws hdraws).extends.trans hx)
    exact ⟨(hcode.then (by simp)).append (hst.matched hclear (fun _ _ h => h) hnamed (@hr _) hx),
      hnamed⟩
  | @computed _ _ loc' i slot _ _ _ _ _ _ _ hslot hindex _ himm hrun _ =>
    have hnamed := named_of_arraySlot hclear hslot i loc'
    have hcode := hi hindex ((hdraws hrun).extends.trans hx)
    refine ⟨?_, hnamed⟩
    rw [Expr.stored_of_not_isImmediate himm, ← List.append_assoc]
    exact (hcode.append (hr hrun hx)).append (hnamed.matched (by simp [hnamed.2]))

theorem Lowering.Stepped.matched {index : Lower (Code × Ty)}
    (h : Stepped scope index s e code dest ty s') (hi : ReadsOnly final scope e.indexUses index)
    (hx : s'.globals.Extends final) :
    Matched scope.Means final e.indexUses code ∧ Named scope.Means final e.place dest := by
  cases h with
  | scalar hdest => exact ⟨matched_of_nil rfl, named_of_scalarOperand hclear hdest⟩
  | element hslot hindex =>
    exact ⟨(hi hindex hx).then (by simp), named_of_arraySlot hclear hslot _ _⟩

/-- **The operands of the code of an expression are those of its names.** -/
theorem readsOnly_lower (e : Expr) : ReadsOnly final scope e.uses (lower fn scope e) := by
  intro s code ty s' h
  refine lower_induct (fun _ hc ih hx => ?_) h
  refine Matched.located ?_ _
  -- whatever an operator does with its sides, it adds no operand in memory
  have hsides {left right : Expr} {leftCode rightCode : Code} {leftTy rightTy : Ty}
      {s₀ s₁ s₂ : Supply} (ihl : ReadsOnly final scope left.uses (lower fn scope left))
      (ihr : ReadsOnly final scope right.uses (lower fn scope right))
      (hl : lower fn scope left s₀ = .ok ((leftCode, leftTy), s₁))
      (hr : lower fn scope right s₁ = .ok ((rightCode, rightTy), s₂))
      (hx₂ : s₂.globals.Extends final) :
      Matched scope.Means final (left.uses ++ right.uses) (leftCode ++ rightCode) :=
    (ihl hl ((draws_of_lower _ _ _ hr).extends.trans hx₂)).append (ihr hr hx₂)
  cases hc with
  | literal =>
    rw [Expr.uses]
    exact matched_of_nil (by simp)
  | ident hsrc =>
    rw [Expr.uses]
    exact (named_of_scalarOperand hclear hsrc).push
  | @member _ index loc _ _ _ _ _ hslot hindex =>
    obtain ⟨name, loc', u, rfl, -⟩ := arraySlot_eq_ok hslot
    have hnamed := named_of_arraySlot hclear hslot index loc
    rw [Expr.uses]
    exact (ih .index hindex hx).append (hnamed.matched (by simp [hnamed.2]))
  | binary _ hl hr | and hl hr | or hl hr =>
    have hboth := hsides (ih .left) (ih .right) hl hr hx
    rw [Expr.uses]
    unfold Matched at hboth ⊢
    simpa using hboth
  | @step _ _ prefixed _ _ dest _ _ _ hop hst =>
    obtain ⟨haddress, hnamed⟩ :=
      hst.matched hclear (readsOnly_lowerIndex fun _ _ _ he => ih (.stepIndex he)) hx
    rw [Expr.uses_step hop, List.append_assoc]
    refine haddress.append ?_
    have hboth := List.rel_append hnamed.1 hnamed.1
    unfold Matched
    cases prefixed <;> simpa [changeCode, hnamed.2] using hboth
  | unary hop hl =>
    rw [Expr.uses_unary hop]
    have harg := ih .argument hl hx
    unfold Matched at harg ⊢
    simpa using harg
  | @assign _ right _ _ _ _ _ ha =>
    obtain ⟨hcode, hnamed⟩ := ha.matched hclear
      (readsOnly_lowerIndex fun _ _ _ he => ih (.placeIndex he)) (ih .assigned)
      (draws_of_lower fn scope right) hx
    rw [Expr.uses_assign]
    exact hcode.append hnamed.push
  | call hcalled =>
    rw [Expr.uses]
    exact hcalled.matched (matched_lowerArgs fun _ ha => ih (.passed ha)) hx

/-- The same for an expression whose value is not needed. -/
theorem matched_lowerEffect (h : lowerEffect fn scope e s = .ok (code, s'))
    (hx : s'.globals.Extends final) : Matched scope.Means final e.effectUses code := by
  have hindex (e : Expr) : ReadsOnly final scope e.indexUses (lowerIndex fn scope e) :=
    readsOnly_lowerIndex fun _ index _ _ => readsOnly_lower hclear index
  cases effected_of_lowerEffect h with
  | assign ha =>
    rw [Expr.effectUses]
    exact (ha.matched hclear (hindex _) (readsOnly_lower hclear _)
      (draws_of_lower fn scope _) hx).1
  | call hcalled =>
    rw [Expr.effectUses, Expr.uses]
    · exact hcalled.matched (matched_lowerArgs fun _ _ => readsOnly_lower hclear _) hx
    · nofun
    · nofun
  | step hop hst =>
    obtain ⟨haddress, hnamed⟩ := hst.matched hclear (hindex _) hx
    rw [Expr.effectUses, if_pos hop]
    exact haddress.append (hnamed.matched (by simp [changeCode, hnamed.2]))
  | @value e _ _ _ hno hl =>
    have huses : e.effectUses = e.uses := by
      cases e with
      | assign | call => cases hno
      | unary op argument prefixed loc =>
        rw [Expr.effectUses, if_neg]
        rw [show isStep op = false from hno]
        exact Bool.false_ne_true
      | _ => rfl
    rw [huses]
    exact (readsOnly_lower hclear e hl hx).then (by simp)

end Clear

end Reads

end Stepwise
