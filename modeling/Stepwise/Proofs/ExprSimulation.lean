import Mathlib
import Stepwise.Proofs.Agreement
import Stepwise.Proofs.Operators

/-!
# Simulation of expressions

The code of an expression simulates its evaluation: it leaves the value on top of the stack, with
the type that the compiler gives to the expression, and memory in agreement with the store. What
agreement means depends on how much is known of the machine; the code of an expression needs only
that variables are read and written alike on both sides, and that what happens on top of the stack
does not matter.

## Main definitions

* `Target.Accord`: an agreement between machine and evaluation that variables and the stack keep up
* `Target.Accord.Evaluates`: the code of an expression simulates its evaluation

## Main results

* `Target.Accord.evaluates`: expressions are simulated, if calls are
-/

namespace Stepwise

open Lowering Snippet Reference

/-! ## Parts of expressions -/

/-- A name occurs in an expression. -/
inductive Expr.Mentions (name : String) : Expr → Prop
  | ident (loc : Location) : Mentions name (.ident name loc)
  | left {op : BinaryOp} {l r : Expr} {loc : Location} : Mentions name l →
    Mentions name (.binary op l r loc)
  | right {op : BinaryOp} {l r : Expr} {loc : Location} : Mentions name r →
    Mentions name (.binary op l r loc)
  | argument {op : UnaryOp} {a : Expr} {prefixed : Bool} {loc : Location} : Mentions name a →
    Mentions name (.unary op a prefixed loc)
  | target {l r : Expr} {loc : Location} : Mentions name l → Mentions name (.assign l r loc)
  | assigned {l r : Expr} {loc : Location} : Mentions name r → Mentions name (.assign l r loc)
  | callee {c : Expr} {args : List Expr} {loc : Location} : Mentions name c →
    Mentions name (.call c args loc)
  | passed {c a : Expr} {args : List Expr} {loc : Location} : a ∈ args → Mentions name a →
    Mentions name (.call c args loc)
  | base {b i : Expr} {loc : Location} : Mentions name b → Mentions name (.member b i loc)
  | index {b i : Expr} {loc : Location} : Mentions name i → Mentions name (.member b i loc)

/-- The variable that an assignment to an expression changes. -/
def Expr.target? : Expr → Option String
  | .ident name _ | .member (.ident name _) _ _ => some name
  | _ => none

/-- A variable is changed by an assignment or a step by one in an expression. -/
inductive Expr.Assigns (name : String) : Expr → Prop
  | assign {l r : Expr} {loc : Location} : l.target? = some name → Assigns name (.assign l r loc)
  | step {op : UnaryOp} {a : Expr} {prefixed : Bool} {loc : Location} : isStep op = true →
    a.target? = some name → Assigns name (.unary op a prefixed loc)
  | left {op : BinaryOp} {l r : Expr} {loc : Location} : Assigns name l →
    Assigns name (.binary op l r loc)
  | right {op : BinaryOp} {l r : Expr} {loc : Location} : Assigns name r →
    Assigns name (.binary op l r loc)
  | argument {op : UnaryOp} {a : Expr} {prefixed : Bool} {loc : Location} : Assigns name a →
    Assigns name (.unary op a prefixed loc)
  | target {l r : Expr} {loc : Location} : Assigns name l → Assigns name (.assign l r loc)
  | assigned {l r : Expr} {loc : Location} : Assigns name r → Assigns name (.assign l r loc)
  | passed {c a : Expr} {args : List Expr} {loc : Location} : a ∈ args → Assigns name a →
    Assigns name (.call c args loc)
  | index {b i : Expr} {loc : Location} : Assigns name i → Assigns name (.member b i loc)

theorem Expr.mentions_of_target? {e : Expr} {name : String} (h : e.target? = some name) :
    e.Mentions name := by
  unfold target? at h
  split at h
  · cases h
    exact .ident _
  · cases h
    exact .base (.ident _)
  · cases h

/-- No function is called in an expression. -/
def Expr.isCallFree : Expr → Bool
  | .literal _ _ | .ident _ _ => true
  | .binary _ l r _ | .assign l r _ | .member l r _ => l.isCallFree && r.isCallFree
  | .unary _ a _ _ => a.isCallFree
  | .call _ _ _ => false

/-- The names in an expression without calls. -/
def Expr.names : Expr → List String
  | .literal _ _ | .call _ _ _ => []
  | .ident name _ => [name]
  | .binary _ l r _ | .assign l r _ | .member l r _ => l.names ++ r.names
  | .unary _ a _ _ => a.names

theorem Expr.Mentions.mem_names {e : Expr} {name : String} (h : e.Mentions name)
    (he : e.isCallFree = true) : name ∈ e.names := by
  induction h with
  | ident loc => exact List.mem_singleton_self name
  | left _ ih | target _ ih | base _ ih =>
    rw [Expr.isCallFree, Bool.and_eq_true] at he
    exact List.mem_append_left _ (ih he.1)
  | right _ ih | assigned _ ih | index _ ih =>
    rw [Expr.isCallFree, Bool.and_eq_true] at he
    exact List.mem_append_right _ (ih he.2)
  | argument _ ih => exact ih he
  | callee | passed => cases he

/-! ## Evaluation of constructs -/

namespace Reference

variable {σ : Type} (Γ : Context σ) (call : Caller σ)

/-- The evaluation of the index of an array element. -/
def evalIndex : Expr → Eval σ Value
  | .member _ index _ => eval Γ call index
  | _ => throw .stuck

theorem eval_assign (left right : Expr) (loc : Location) :
    eval Γ call (.assign left right loc) = placeOf left (evalIndex Γ call left) >>= fun p =>
      eval Γ call right >>= put p := by
  cases left <;> simp only [eval, evalIndex]

theorem eval_step {op : UnaryOp} (hop : isStep op = true) (argument : Expr) (prefixed : Bool)
    (loc : Location) :
    eval Γ call (.unary op argument prefixed loc) =
      placeOf argument (evalIndex Γ call argument) >>= stepPlace op prefixed := by
  cases argument <;> simp only [eval, evalIndex, hop, if_true]

theorem eval_unary {op : UnaryOp} (hop : isStep op = false) (argument : Expr) (prefixed : Bool)
    (loc : Location) :
    eval Γ call (.unary op argument prefixed loc) =
      eval Γ call argument >>= fun v => ofFault (liftArithmetic (foldUnary op v)) := by
  cases op with
  | neg | pos | not => cases argument <;> simp only [eval, hop] <;> rfl
  | inc | dec => cases hop

theorem eval_binary {op : BinaryOp} (hop : isLogical op = false) (left right : Expr)
    (loc : Location) :
    eval Γ call (.binary op left right loc) = eval Γ call left >>= fun a =>
      eval Γ call right >>= fun b => ofFault (liftArithmetic (fold op a b)) := by
  cases op with
  | and | or => cases hop
  | _ => simp only [eval]

theorem eval_and (left right : Expr) (loc : Location) :
    eval Γ call (.binary .and left right loc) = eval Γ call left >>= fun a =>
      if a.isZero then pure (.bool false)
      else eval Γ call right >>= fun b => pure (.bool (!b.isZero)) := by
  simp only [eval]

theorem eval_or (left right : Expr) (loc : Location) :
    eval Γ call (.binary .or left right loc) = eval Γ call left >>= fun a =>
      if a.isZero then eval Γ call right >>= fun b => pure (.bool (!b.isZero))
      else pure (.bool true) := by
  simp only [eval]

theorem stepPlace_eq (op : UnaryOp) (prefixed : Bool) (p : Place) :
    (stepPlace op prefixed p : Eval σ Value) = fetch p >>= fun old =>
      (ofFault (liftArithmetic (increment (stepCode op) old)) >>= put p) >>= fun new =>
        pure (if prefixed then new else old) := by
  simp only [stepPlace, bind_assoc]

end Reference

namespace Target

variable {σ : Type}

/-! ## Agreement -/

/-- What is kept up between the machine and an evaluation while the code of expressions runs. -/
structure Accord (T : Target σ) (frame : FrameLayout) (scope : Scope) where
  /-- The variables that may be read. -/
  Sees : String → Prop
  /-- The variables that may be changed. -/
  Writes : String → Prop
  /-- Functions may be called. -/
  Calls : Prop
  /-- What holds when a fault has stopped the machine. -/
  Stop : Fault → Store σ → State → Prop
  /-- The machine is at `pc`, with `top` on the stack, the uppermost value first, and memory agrees
  with the store. -/
  At : (pc : Nat) → (top : List Value) → Store σ → State → Prop
  pc_eq : ∀ {pc top st s}, At pc top st s → s.pc = pc
  arithmetic : ∀ {pc top st s}, At pc top st s → ∀ cause pc' registers,
    Stop (.arithmetic cause) st { s with pc := pc', registers := registers }
  move : ∀ {pc top st s}, At pc top st s → ∀ pc' {registers}, s.registers.Keeps registers →
    At pc' top st { s with pc := pc', registers := registers }
  push : ∀ {pc top st s}, At pc top st s → ∀ pc' {registers} v, s.registers.Keeps registers →
    At pc' (v :: top) st { s with pc := pc', registers := registers, stack := s.stack.push v }
  pop : ∀ {pc v top st s}, At pc (v :: top) st s → ∃ stack, s.stack = stack.push v ∧
    ∀ pc' {registers}, s.registers.Keeps registers →
      At pc' top st { s with pc := pc', registers := registers, stack := stack }
  fetch : ∀ {pc top st s name u index i}, At pc top st s → Sees name →
    scope.lookup? name = some (.variable u) → s.indexValue index = .ok i →
    (∃ v, Reference.fetch ⟨name, i⟩ st = .ok v st ∧ v.ty = u.ty ∧ ∀ op pc,
      s.read ((u.slot.operand index).settle T.labels frame op pc) = .ok v) ∨
    Reference.fetch ⟨name, i⟩ st = .error .outside st
  put : ∀ {pc top st s name u index i x}, At pc top st s → Writes name →
    scope.lookup? name = some (.variable u) → s.indexValue index = .ok i → x.ty = u.ty →
    (∃ st' s', st'.world = st.world ∧ s'.registers = s.registers ∧
      (∀ v, coerce u.ty v = .ok x → Reference.put ⟨name, i⟩ v st = .ok x st' ∧
        ∀ op pc, s.write ((u.slot.operand index).settle T.labels frame op pc) v = .ok s') ∧
      (∀ op pc, s'.read ((u.slot.operand index).settle T.labels frame op pc) = .ok x) ∧
      ∀ pc', At pc' top st' { s' with pc := pc' }) ∨
    ∀ v, coerce u.ty v = .ok x → Reference.put ⟨name, i⟩ v st = .error .outside st

namespace Accord

variable {T : Target σ} {frame : FrameLayout} {scope : Scope} (A : T.Accord frame scope)
  {s : State} {addr n : Nat} {top : List Value} {st : Store σ} {v : Value} {w : σ}

/-! ## Variables -/

variable {name : String} {loc : Location} {rightTy : Ty}

/-- A pushed operand that reads a cell. -/
theorem simulates_fetch {u : Variable} (hs : A.Sees name)
    (hu : scope.lookup? name = some (.variable u)) {index : Option Reg} {i : Int}
    (hc : A.At addr top st s) (hindex : s.indexValue index = .ok i)
    (h : T.Stands frame addr (.push (u.slot.operand index))) :
    T.Simulates A.Stop n (Reference.fetch ⟨name, i⟩ st) s st.world fun v st' s' => v.ty = u.ty ∧
      A.At (addr + 1) (v :: top) st' s' := by
  rcases A.fetch hc hs hu hindex with ⟨v, hv, hty, hread⟩ | hout
  · rw [hv]
    exact simulates_ok (runs_push h ⟨rfl, rfl, rfl⟩ (A.pc_eq hc) (hread _ _))
      ⟨hty, A.push hc _ v .refl⟩
  · rw [hout]
    trivial

/-- A store into a cell. The machine may store another value than the evaluation, if it becomes the
same in the cell. -/
theorem simulates_put {u : Variable} (hw : A.Writes name)
    (hu : scope.lookup? name = some (.variable u)) {index : Option Reg} {i : Int}
    (hc : A.At addr top st s) (hindex : s.indexValue index = .ok i) {instr : Instr} {src : Operand}
    (h : T.Stands frame addr instr) (hi : Reads instr .mov (some (u.slot.operand index)) (some src))
    {v' x : Value} (hsrc : s.read (src.settle T.labels frame .mov addr) = .ok v')
    (hv : coerce u.ty v = .ok x) (hv' : coerce u.ty v' = .ok x) :
    T.Simulates A.Stop n (Reference.put ⟨name, i⟩ v st) s st.world fun x st' s' => x.ty = u.ty ∧
      A.At (addr + 1) top st' s' ∧ ∀ op pc,
        s'.read ((u.slot.operand index).settle T.labels frame op pc) = .ok x := by
  rcases A.put hc hw hu hindex (ty_of_coerce hv) with ⟨st', s', hworld, -, hput, hread, hat⟩ | hout
  · rw [(hput v hv).1]
    have hrun := @runs_mov σ T frame addr s s' st.world instr _ _ _ h hi (A.pc_eq hc) hsrc
      ((hput v' hv').2 _ _)
    rw [← hworld] at hrun ⊢
    refine simulates_ok hrun ⟨ty_of_coerce hv, hat _, fun op pc => ?_⟩
    exact hread op pc
  · rw [hout v hv]
    trivial

/-! ## Constructs -/

/-- The code of an expression simulates its evaluation. -/
def Evaluates (Γ : Context σ) (call : Caller σ) (n : Nat) (fn : String) (e : Expr) : Prop :=
  ∀ ⦃sup sup' : Supply⦄ ⦃code : Code⦄ ⦃ty : Ty⦄ ⦃addr : Nat⦄ ⦃s : State⦄ ⦃st : Store σ⦄
    ⦃top : List Value⦄, lower fn scope e sup = .ok ((code, ty), sup') →
    (A.Calls → sup'.globals.Extends T.layout) → Placed T.program frame addr code →
    A.At addr top st s →
    T.Simulates A.Stop n (eval Γ call e st) s st.world fun v st' s' => v.ty = ty ∧
      A.At (addr + code.size) (v :: top) st' s'

variable {A} {Γ : Context σ} {call : Caller σ} {fn : String} {sup sup' : Supply} {code : Code}
  {ty : Ty} {e left right : Expr}

/-- A store of an expression into a variable, or of an immediate one into an element. -/
theorem simulates_stored {u : Variable} (hw : A.Writes name)
    (hu : scope.lookup? name = some (.variable u)) {index : Option Reg} {i : Int}
    (he : A.Evaluates Γ call n fn e) (hs : ∀ name, e.Mentions name → A.Sees name)
    (h : Stored scope (u.slot.operand index) u.ty (lower fn scope e) sup e code sup')
    (hx : A.Calls → sup'.globals.Extends T.layout) (hplaced : Placed T.program frame addr code)
    (hc : A.At addr top st s) (hindex : s.indexValue index = .ok i)
    (hkind : index = none ∨ isImmediate e = true) :
    T.Simulates A.Stop n ((eval Γ call e >>= Reference.put ⟨name, i⟩) st) s st.world
      fun x st' s' => x.ty = u.ty ∧ A.At (addr + code.size) top st' s' ∧ ∀ op pc,
        s'.read ((u.slot.operand index).settle T.labels frame op pc) = .ok x := by
  cases h with
  | @literal v x loc hv =>
    have hcoerce : coerce u.ty v = .ok x := (convertConstant_eq_ok.mp hv).2
    have hself : coerce u.ty x = .ok x := ty_of_coerce hcoerce ▸ coerce_self x
    rw [eval]
    exact A.simulates_put hw hu hc hindex hplaced.1 ⟨rfl, rfl, rfl⟩ rfl hcoerce hself
  | @ident name' loc src found hsrc ha =>
    obtain ⟨u', hu', -, rfl, rfl⟩ := scalarOperand_eq_ok hsrc
    rw [eval]
    have hzero : s.indexValue none = .ok 0 := rfl
    rcases A.fetch hc (hs name' (.ident loc)) hu' hzero with ⟨v, hv, hty, hread⟩ | hout
    · simp only [bind, EStateM.bind, hv]
      obtain ⟨x, hx⟩ := exists_coerce (hty ▸ ha)
      exact A.simulates_put hw hu hc hindex hplaced.1 ⟨rfl, rfl, rfl⟩ (hread _ _) hx hx
    · simp only [bind, EStateM.bind, hout]
      trivial
  | @computed _ valueCode found _ himm hl ha =>
    -- the value is popped into a register, where an index could not wait
    obtain rfl : index = none := hkind.resolve_right (by simp [himm])
    cases hindex
    obtain ⟨hvalue, h₀, h₁, -⟩ := (placed_append _ _ _).mp hplaced
    refine Simulates.bind (he hl hx hvalue hc) ?_
    rintro v st₁ s₁ ⟨rfl, hc₁⟩
    obtain ⟨stack, hstack, hpop⟩ := A.pop hc₁
    have hrun := @runs_pop σ T frame _ s₁ st₁.world .r0 v h₀ (A.pc_eq hc₁) stack hstack
    obtain ⟨x, hx⟩ := exists_coerce ha
    rw [Code.size_append]
    refine Simulates.prepend ?_ hrun
    exact A.simulates_put hw hu (hpop _ (.set .refl rfl v)) rfl h₁ ⟨rfl, rfl, rfl⟩
      (congrArg Except.ok (Registers.get_set_self _ _ _)) hx hx

/-- The code of an index leaves the number of a cell on the stack. -/
theorem simulates_placeOf {index : Expr} {loc' : Location} {indexTy : Ty}
    (he : A.Evaluates Γ call n fn index)
    (hl : lower fn scope index sup = .ok ((code, indexTy), sup')) (hint : indexTy.isIntegral = true)
    (hx : A.Calls → sup'.globals.Extends T.layout) (hplaced : Placed T.program frame addr code)
    (hc : A.At addr top st s) :
    T.Simulates A.Stop n ((placeOf (.member (.ident name loc) index loc') (eval Γ call index)) st) s
      st.world fun p st' s' => ∃ v i, v.toInt? = some i ∧ p = ⟨name, i.toInt⟩ ∧
        A.At (addr + code.size) (v :: top) st' s' := by
  refine Simulates.bind (he hl hx hplaced hc) ?_
  rintro v st₁ s₁ ⟨rfl, hc₁⟩
  obtain ⟨i, hi⟩ := Value.exists_toInt? hint
  simp only [hi]
  exact simulates_pure ⟨v, i, hi, rfl, hc₁⟩

/-- The number of a cell is popped into the index register. -/
theorem runs_popIndex {i : Int64} (hi : v.toInt? = some i) (hc : A.At addr (v :: top) st s)
    (h : T.Stands frame addr (.pop ix)) :
    ∃ s', T.Runs 1 s w s' w ∧ A.At (addr + 1) top st s' ∧
      s'.indexValue (some .ix) = .ok i.toInt ∧ s'.registers = s.registers.set .ix v := by
  obtain ⟨stack, hs, hpop⟩ := A.pop hc
  refine ⟨_, runs_pop h (A.pc_eq hc) hs, hpop _ (.set .refl rfl v), ?_, rfl⟩
  simp only [State.indexValue, Registers.get_set_self, hi]

/-- The supply after a part of an expression. -/
theorem extends_of_lower {a : Code × Ty} (hl : lower fn scope e sup = .ok (a, sup'))
    (hx : A.Calls → sup'.globals.Extends T.layout) : A.Calls → sup.globals.Extends T.layout :=
  fun hcalls => (draws_of_lower fn scope e hl).extends.trans (hx hcalls)

/-- An assignment, up to the value that it may leave. -/
theorem simulates_assigned {dest : Operand}
    (hi : ∀ base index loc, left = .member base index loc → A.Evaluates Γ call n fn index)
    (hr : A.Evaluates Γ call n fn right) (hs : ∀ name, right.Mentions name → A.Sees name)
    (hw : ∀ name, left.target? = some name → A.Writes name)
    (h : Assigned scope right (lowerIndex fn scope left) (lower fn scope right) sup left code dest ty
      sup')
    (hx : A.Calls → sup'.globals.Extends T.layout) (hplaced : Placed T.program frame addr code)
    (hc : A.At addr top st s) :
    T.Simulates A.Stop n ((placeOf left (evalIndex Γ call left) >>= fun p =>
        eval Γ call right >>= Reference.put p) st) s st.world fun x st' s' =>
      x.ty = ty ∧ A.At (addr + code.size) top st' s' ∧ ∀ op pc,
        s'.read (dest.settle T.labels frame op pc) = .ok x := by
  cases h with
  | @scalar name loc _ _ _ _ hd hst =>
    obtain ⟨u, hu, -, rfl, rfl⟩ := scalarOperand_eq_ok hd
    exact simulates_stored (hw name rfl) hu hr hs hst hx hplaced hc rfl (.inl rfl)
  | @immediate name loc loc' i slot _ indexTy indexCode storeCode s₁ _ hslot hl hint himm hst =>
    obtain ⟨_, _, u, ⟨⟩, hu, -, rfl, rfl⟩ := arraySlot_eq_ok hslot
    rw [placed_append, placed_append] at hplaced
    obtain ⟨⟨hindex, hpop, -⟩, hstore⟩ := hplaced
    -- the right side touches no register, so the index can wait in `IX`
    have hx₁ : A.Calls → s₁.globals.Extends T.layout := fun hcalls =>
      (hst.draws (draws_of_lower fn scope right)).extends.trans (hx hcalls)
    refine Simulates.bind (simulates_placeOf (hi _ _ _ rfl) hl hint hx₁ hindex hc) ?_
    rintro p st₁ s₁ ⟨v, k, hk, rfl, hc₁⟩
    obtain ⟨s₂, hrun, hc₂, hindex₂, -⟩ := runs_popIndex hk hc₁ hpop
    have hsize : addr + indexCode.size + 1 = addr + (indexCode ++ Code.ofInstrs [.pop ix]).size := by
      rw [Code.size_append]
      rfl
    rw [hsize] at hc₂
    rw [Code.size_append, ← Nat.add_assoc]
    exact (simulates_stored (hw name rfl) hu hr hs hst hx hstore hc₂ hindex₂ (.inr himm)).prepend
      hrun
  | @computed name loc loc' i slot _ indexTy found indexCode value s₁ _ hslot hl hint himm hrhs ha =>
    obtain ⟨_, _, u, ⟨⟩, hu, -, rfl, rfl⟩ := arraySlot_eq_ok hslot
    rw [placed_append, placed_append] at hplaced
    obtain ⟨⟨hindex, hvalue⟩, h₀, h₁, h₂, -⟩ := hplaced
    -- the right side may use `IX`, so the index waits on the stack
    refine Simulates.bind (simulates_placeOf (hi _ _ _ rfl) hl hint (extends_of_lower hrhs hx) hindex
      hc) ?_
    rintro p st₁ s₁ ⟨v, k, hk, rfl, hc₁⟩
    refine Simulates.bind (hr hrhs hx hvalue hc₁) ?_
    rintro x st₂ s₂ ⟨rfl, hc₂⟩
    obtain ⟨stack, hstack, hpop⟩ := A.pop hc₂
    obtain ⟨y, hy⟩ := exists_coerce ha
    rw [Code.size_append] at h₀ h₁ h₂
    rw [← Nat.add_assoc] at h₀ h₁ h₂
    have hrun₀ := @runs_pop σ T frame _ s₂ st₂.world .r0 x h₀ (A.pc_eq hc₂) stack hstack
    obtain ⟨s₃, hrun₁, hc₃, hindex₃, hregs⟩ := runs_popIndex hk
      (hpop _ (.set .refl (x := .r0) rfl x)) h₁
    have hsrc : s₃.read (r0.settle T.labels frame .mov (addr + indexCode.size + value.size + 1 + 1)) =
        .ok x := by
      refine congrArg Except.ok ?_
      rw [hregs, Registers.get_set_of_ne _ (by decide), Registers.get_set_self]
    rw [Code.size_append, Code.size_append, ← Nat.add_assoc, ← Nat.add_assoc]
    exact (A.simulates_put (hw name rfl) hu hc₃ hindex₃ h₂ ⟨rfl, rfl, rfl⟩ hsrc hy hy).prepend
      (hrun₀.trans hrun₁)

/-! ### Steps by one -/

/-- The place that a step by one changes. -/
theorem simulates_stepped {dest : Operand}
    (hi : ∀ base index loc, e = .member base index loc → A.Evaluates Γ call n fn index)
    (h : Stepped scope (lowerIndex fn scope e) sup e code dest ty sup')
    (hx : A.Calls → sup'.globals.Extends T.layout) (hplaced : Placed T.program frame addr code)
    (hc : A.At addr top st s) :
    T.Simulates A.Stop n ((placeOf e (evalIndex Γ call e)) st) s st.world fun p st' s' =>
      ∃ u index, dest = u.slot.operand index ∧ e.target? = some p.name ∧
        scope.lookup? p.name = some (.variable u) ∧ u.ty = ty ∧
        s'.indexValue index = .ok p.index ∧ A.At (addr + code.size) top st' s' := by
  cases h with
  | @scalar name loc _ _ hd =>
    obtain ⟨u, hu, -, rfl, rfl⟩ := scalarOperand_eq_ok hd
    exact simulates_pure ⟨u, none, rfl, rfl, hu, rfl, rfl, hc⟩
  | @element name loc loc' i slot _ indexTy indexCode _ hslot hl hint =>
    obtain ⟨_, _, u, ⟨⟩, hu, -, rfl, rfl⟩ := arraySlot_eq_ok hslot
    rw [placed_append] at hplaced
    obtain ⟨hindex, hpop, -⟩ := hplaced
    rw [Code.size_append, ← Nat.add_assoc]
    refine (simulates_placeOf (hi _ _ _ rfl) hl hint hx hindex hc).append ?_
    rintro p st₁ s₁ ⟨v, k, hk, rfl, hc₁⟩
    obtain ⟨s₂, hrun, hc₂, hindex₂, -⟩ := runs_popIndex hk hc₁ hpop
    exact ⟨1, s₂, hrun, u, some .ix, rfl, rfl, hu, rfl, hindex₂, hc₂⟩

section StepPlace

variable {op : UnaryOp} {name : String} {u : Variable} {index : Option Reg} {i : Int}
  (hw : A.Writes name) (hu : scope.lookup? name = some (.variable u))
  (hnumber : u.ty = .int ∨ u.ty = .double)

include hw hu hnumber

/-- The instruction of a step by one. -/
theorem simulates_increment (hc : A.At addr top st s) (hindex : s.indexValue index = .ok i)
    (h : T.Stands frame addr (.unary (stepCode op) (u.slot.operand index)))
    (hold : s.read ((u.slot.operand index).settle T.labels frame (stepCode op) addr) = .ok v)
    (hty : v.ty = u.ty) :
    T.Simulates A.Stop n ((ofFault (liftArithmetic (increment (stepCode op) v)) >>=
        Reference.put ⟨name, i⟩ : Eval σ Value) st) s st.world fun x st' s' =>
      x.ty = u.ty ∧ A.At (addr + 1) top st' s' ∧ ∀ op pc,
        s'.read ((u.slot.operand index).settle T.labels frame op pc) = .ok x := by
  obtain ⟨new, hnew, hnewty⟩ := increment_of_number (stepCode_eq op) (hty ▸ hnumber)
  have hself : coerce u.ty new = .ok new := by
    rw [← hty, ← hnewty]
    exact coerce_self new
  rw [hnew]
  show T.Simulates A.Stop n (Reference.put ⟨name, i⟩ new st) s st.world _
  rcases A.put hc hw hu hindex (ty_of_coerce hself) with ⟨st', s', hworld, -, hput, hread, hat⟩ |
    hout
  · rw [(hput new hself).1]
    have hrun := @runs_step σ T frame addr s s' st.world _ _ _ op h (A.pc_eq hc) hold hnew
      ((hput new hself).2 _ _)
    rw [← hworld] at hrun ⊢
    refine simulates_ok hrun ⟨ty_of_coerce hself, hat _, fun op pc => ?_⟩
    exact hread op pc
  · rw [hout new hself]
    trivial

variable (hs : A.Sees name)

include hs

/-- A step by one for its value. -/
theorem simulates_stepPlace {prefixed : Bool} (hc : A.At addr top st s)
    (hindex : s.indexValue index = .ok i)
    (h : Placed T.program frame addr (changeCode op prefixed true (u.slot.operand index))) :
    T.Simulates A.Stop n ((stepPlace op prefixed ⟨name, i⟩ : Eval σ Value) st) s st.world
      fun x st' s' => x.ty = u.ty ∧ A.At (addr + 2) (x :: top) st' s' := by
  rw [stepPlace_eq]
  rcases A.fetch hc hs hu hindex with ⟨old, hold, hty, hread⟩ | hout
  · simp only [bind, EStateM.bind, hold]
    cases prefixed with
    | true =>
      obtain ⟨h₀, h₁, -⟩ := h
      refine Simulates.bind (simulates_increment hw hu hnumber hc hindex h₀ (hread _ _) hty) ?_
      rintro x st₁ s₁ ⟨hxty, hc₁, hread₁⟩
      exact simulates_ok (runs_push h₁ ⟨rfl, rfl, rfl⟩ (A.pc_eq hc₁) (hread₁ _ _))
        ⟨hxty, A.push hc₁ _ x .refl⟩
    | false =>
      obtain ⟨h₀, h₁, -⟩ := h
      have hrun := @runs_push σ T frame addr s st.world _ _ old h₀ ⟨rfl, rfl, rfl⟩ (A.pc_eq hc)
        (hread _ _)
      have hc₁ := A.push hc (addr + 1) old .refl
      -- the cell is read again, with the same content
      have hread₁ : State.read { s with pc := addr + 1, stack := s.stack.push old }
          ((u.slot.operand index).settle T.labels frame (stepCode op) (addr + 1)) = .ok old := by
        rcases A.fetch hc₁ hs hu hindex with ⟨old', hold', -, hread'⟩ | hout
        · cases hold.symm.trans hold'
          exact hread' _ _
        · cases hold.symm.trans hout
      refine Simulates.prepend ?_ hrun
      refine Simulates.bind (simulates_increment hw hu hnumber hc₁ hindex h₁ hread₁ hty) ?_
      rintro x st₁ s₁ ⟨-, hc₂, -⟩
      exact simulates_pure ⟨hty, hc₂⟩
  · simp only [bind, EStateM.bind, hout]
    trivial

end StepPlace

/-! ### Operators -/

/-- A calculated result. -/
theorem simulates_calculated {pc' : Nat} {r : Except ArithmeticError Value}
    (hc : A.At addr top st s) (h : T.Calculates s st.world pc' (liftArithmetic r)) :
    T.Simulates A.Stop n ((ofFault (liftArithmetic r) : Eval σ Value) st) s st.world
      fun v st' s' => r = .ok v ∧ A.At pc' (v :: top) st' s' := by
  cases r with
  | ok v =>
    obtain ⟨k, registers, hkeeps, hrun⟩ := h
    exact simulates_ok hrun ⟨rfl, A.push hc _ v hkeeps⟩
  | error cause =>
    obtain ⟨k, pc, registers, hrun, hfail⟩ := h
    exact ⟨k, _, hrun, hfail, A.arithmetic hc cause pc registers⟩

/-- A truth value at the end of a logical operator. -/
theorem simulates_truth {pc' : Nat} {b : Bool} (hc : A.At addr top st s)
    (h : T.Calculates s st.world pc' (.ok (.bool b))) :
    T.Simulates A.Stop n ((pure (.bool b) : Eval σ Value) st) s st.world
      fun v st' s' => v.ty = .boolean ∧ A.At pc' (v :: top) st' s' := by
  obtain ⟨k, registers, hkeeps, hrun⟩ := h
  exact simulates_ok hrun ⟨rfl, A.push hc _ _ hkeeps⟩

/-- The test of a value on top of the stack. -/
theorem runs_test {l : String} {target : Nat} (hc : A.At addr (v :: top) st s)
    (h : Placed T.program frame addr (popTest l)) (hl : T.labels.get? l = some target) :
    ∃ s', T.Runs 2 s w s' w ∧ A.At (if v.isZero then target else addr + 2) top st s' := by
  obtain ⟨stack, hs, hpop⟩ := A.pop hc
  exact ⟨_, runs_popTest h (A.pc_eq hc) hl hs, hpop _ (.set .refl rfl v)⟩

/-- The right side of a logical operator decides. -/
theorem simulates_decided {t : TruthLabels} (hr : A.Evaluates Γ call n fn right)
    (hl : lower fn scope right sup = .ok ((code, rightTy), sup'))
    (hx : A.Calls → sup'.globals.Extends T.layout) (hplaced : Placed T.program frame addr code)
    (htest : Placed T.program frame (addr + code.size) (popTest t.no))
    (htruth : Placed T.program frame (addr + code.size + 2) (truthCode t))
    (hc : A.At addr top st s) :
    T.Simulates A.Stop n ((eval Γ call right >>= fun b => pure (.bool (!b.isZero))) st) s st.world
      fun v st' s' => v.ty = .boolean ∧ A.At (addr + code.size + 2 + 4) (v :: top) st' s' := by
  refine Simulates.bind (hr hl hx hplaced hc) ?_
  rintro b st₁ s₁ ⟨-, hc₁⟩
  obtain ⟨s₂, hrun, hc₂⟩ := runs_test (w := st₁.world) hc₁ htest htruth.2.2.2.1
  refine Simulates.prepend ?_ hrun
  cases hb : b.isZero with
  | true =>
    rw [hb, if_pos rfl] at hc₂
    exact simulates_truth hc₂ (calculates_no htruth (A.pc_eq hc₂))
  | false =>
    rw [hb, if_neg Bool.false_ne_true] at hc₂
    exact simulates_truth hc₂ (calculates_yes htruth (A.pc_eq hc₂))

/-- **A conjunction** skips its right side if the left one is zero. -/
theorem evaluates_and {leftCode rightCode : Code} {leftTy : Ty} {s₁ : Supply} {t : TruthLabels}
    (hleft : A.Evaluates Γ call n fn left) (hright : A.Evaluates Γ call n fn right)
    (hl : lower fn scope left sup = .ok ((leftCode, leftTy), s₁))
    (hr : lower fn scope right s₁ = .ok ((rightCode, rightTy), sup'))
    (hx : A.Calls → sup'.globals.Extends T.layout)
    (hplaced : Placed T.program frame addr (andCode t leftCode rightCode))
    (hc : A.At addr top st s) :
    T.Simulates A.Stop n (eval Γ call (.binary .and left right loc) st) s st.world fun v st' s' =>
      v.ty = .boolean ∧ A.At (addr + (andCode t leftCode rightCode).size) (v :: top) st' s' := by
  simp only [andCode, placed_append, Code.size_append, ← Nat.add_assoc] at hplaced ⊢
  obtain ⟨⟨⟨⟨hpl, htest⟩, hpr⟩, htest'⟩, htruth⟩ := hplaced
  rw [eval_and]
  refine Simulates.bind (hleft hl (extends_of_lower hr hx) hpl hc) ?_
  rintro a st₁ s₂ ⟨-, hc₁⟩
  obtain ⟨s₃, hrun, hc₂⟩ := runs_test (w := st₁.world) hc₁ htest htruth.2.2.2.1
  refine Simulates.prepend ?_ hrun
  cases ha : a.isZero with
  | true =>
    rw [ha, if_pos rfl] at hc₂
    rw [if_pos rfl]
    exact simulates_truth hc₂ (calculates_no htruth (A.pc_eq hc₂))
  | false =>
    rw [ha, if_neg Bool.false_ne_true] at hc₂
    rw [if_neg Bool.false_ne_true]
    exact simulates_decided hright hr hx hpr htest' htruth hc₂

/-- **A disjunction** skips its right side if the left one is not zero. -/
theorem evaluates_or {leftCode rightCode : Code} {leftTy : Ty} {s₁ : Supply} {t : TruthLabels}
    {rhs : String} (hleft : A.Evaluates Γ call n fn left) (hright : A.Evaluates Γ call n fn right)
    (hl : lower fn scope left sup = .ok ((leftCode, leftTy), s₁))
    (hr : lower fn scope right s₁ = .ok ((rightCode, rightTy), sup'))
    (hx : A.Calls → sup'.globals.Extends T.layout)
    (hplaced : Placed T.program frame addr (orCode t rhs leftCode rightCode))
    (hc : A.At addr top st s) :
    T.Simulates A.Stop n (eval Γ call (.binary .or left right loc) st) s st.world fun v st' s' =>
      v.ty = .boolean ∧ A.At (addr + (orCode t rhs leftCode rightCode).size) (v :: top) st' s' := by
  simp only [orCode, placed_append, Code.size_append, ← Nat.add_assoc] at hplaced ⊢
  obtain ⟨⟨⟨⟨⟨hpl, htest⟩, hjump⟩, hpr⟩, htest'⟩, htruth⟩ := hplaced
  rw [eval_or]
  refine Simulates.bind (hleft hl (extends_of_lower hr hx) hpl hc) ?_
  rintro a st₁ s₂ ⟨-, hc₁⟩
  obtain ⟨s₃, hrun, hc₂⟩ := runs_test (w := st₁.world) hc₁ htest hjump.2.1
  refine Simulates.prepend ?_ hrun
  cases ha : a.isZero with
  | true =>
    rw [ha, if_pos rfl] at hc₂
    rw [if_pos rfl]
    exact simulates_decided hright hr hx hpr htest' htruth hc₂
  | false =>
    rw [ha, if_neg Bool.false_ne_true] at hc₂
    rw [if_neg Bool.false_ne_true]
    -- behind a true left side the code jumps over the right one
    have hskip := @runs_rjmp σ T frame _ _ s₃ st₁.world t.yes hjump.1 (A.pc_eq hc₂) htruth.1
    have hc₃ := A.move hc₂ (addr + leftCode.size + 3 + rightCode.size + 2) .refl
    exact (simulates_truth hc₃ (calculates_yes htruth rfl)).prepend hskip

/-- **An operator on two values** evaluates the left one first. -/
theorem evaluates_binary {op : BinaryOp} {leftCode rightCode : Code} {leftTy : Ty} {s₁ : Supply}
    (hop : isLogical op = false) (hleft : A.Evaluates Γ call n fn left)
    (hright : A.Evaluates Γ call n fn right)
    (hl : lower fn scope left sup = .ok ((leftCode, leftTy), s₁))
    (hr : lower fn scope right s₁ = .ok ((rightCode, rightTy), sup'))
    (hty : binaryType op leftTy rightTy = .ok ty) (hx : A.Calls → sup'.globals.Extends T.layout)
    (hplaced : Placed T.program frame addr (binaryCode op leftCode rightCode))
    (hc : A.At addr top st s) :
    T.Simulates A.Stop n (eval Γ call (.binary op left right loc) st) s st.world fun v st' s' =>
      v.ty = ty ∧ A.At (addr + (binaryCode op leftCode rightCode).size) (v :: top) st' s' := by
  simp only [binaryCode, placed_append, Code.size_append, ← Nat.add_assoc] at hplaced ⊢
  obtain ⟨⟨⟨hpl, hpr⟩, h₁, h₀, -⟩, happly⟩ := hplaced
  rw [eval_binary Γ call hop]
  refine Simulates.bind (hleft hl (extends_of_lower hr hx) hpl hc) ?_
  rintro a st₁ s₂ ⟨rfl, hc₁⟩
  refine Simulates.bind (hright hr hx hpr hc₁) ?_
  rintro b st₂ s₃ ⟨rfl, hc₂⟩
  -- the right value lies on top and is popped first
  obtain ⟨stack, hstack, hpop⟩ := A.pop hc₂
  have hrun₁ := @runs_pop σ T frame _ s₃ st₂.world .r1 b h₁ (A.pc_eq hc₂) stack hstack
  have hc₃ := hpop (addr + leftCode.size + rightCode.size + 1) (.set .refl (x := .r1) rfl b)
  obtain ⟨stack', hstack', hpop'⟩ := A.pop hc₃
  have hrun₀ := @runs_pop σ T frame _ _ st₂.world .r0 a h₀ rfl stack' hstack'
  have hc₄ := hpop' (addr + leftCode.size + rightCode.size + 2) (.set .refl (x := .r0) rfl a)
  have hb : ((s₃.registers.set .r1 b).set .r0 a).get .r1 = b := by
    rw [Registers.get_set_of_ne _ (by decide), Registers.get_set_self]
  refine Simulates.prepend ?_ (hrun₁.trans hrun₀)
  refine (simulates_calculated hc₄ (calculates_applyCode hop happly rfl
    (Registers.get_set_self _ _ _) hb)).mono ?_
  rintro v st' s' ⟨hv, hat⟩
  exact ⟨ty_of_fold hty hv, hat⟩

/-- **An operator on one value.** -/
theorem evaluates_unary {op : UnaryOp} {argument : Expr} {prefixed : Bool} {t : Ty}
    (hop : isStep op = false) (ha : A.Evaluates Γ call n fn argument)
    (hl : lower fn scope argument sup = .ok ((code, t), sup')) (hty : unaryType op t = .ok ty)
    (hx : A.Calls → sup'.globals.Extends T.layout)
    (hplaced : Placed T.program frame addr (unaryCode op code)) (hc : A.At addr top st s) :
    T.Simulates A.Stop n (eval Γ call (.unary op argument prefixed loc) st) s st.world
      fun v st' s' => v.ty = ty ∧ A.At (addr + (unaryCode op code).size) (v :: top) st' s' := by
  have hpa : Placed T.program frame addr code := by
    rw [unaryCode.eq_def, placed_append] at hplaced
    exact hplaced.1
  rw [eval_unary Γ call hop]
  refine Simulates.bind (ha hl hx hpa hc) ?_
  rintro a st₁ s₁ ⟨rfl, hc₁⟩
  cases op with
  | neg =>
    obtain ⟨-, h₀, hneg⟩ := (placed_append _ _ _).mp hplaced
    obtain ⟨stack, hstack, hpop⟩ := A.pop hc₁
    have hrun := @runs_pop σ T frame _ s₁ st₁.world .r1 a h₀ (A.pc_eq hc₁) stack hstack
    have hc₂ := hpop (addr + code.size + 1) (.set .refl (x := .r1) rfl a)
    have hsize : addr + (unaryCode .neg code).size = addr + code.size + 1 + 3 := by
      simp [unaryCode]
      omega
    rw [hsize]
    refine Simulates.prepend ?_ hrun
    refine (simulates_calculated hc₂ (calculates_negation hneg rfl
      (Registers.get_set_self _ _ _))).mono ?_
    rintro v st' s' ⟨hv, hat⟩
    exact ⟨ty_of_foldUnary hty hv, hat⟩
  | not =>
    obtain ⟨-, h₀, htest⟩ := (placed_append _ _ _).mp hplaced
    obtain ⟨stack, hstack, hpop⟩ := A.pop hc₁
    have hrun := @runs_pop σ T frame _ s₁ st₁.world .r0 a h₀ (A.pc_eq hc₁) stack hstack
    have hc₂ := hpop (addr + code.size + 1) (.set .refl (x := .r0) rfl a)
    have hsize : addr + (unaryCode .not code).size = addr + code.size + 1 + 4 := by
      simp [unaryCode, zeroTest]
      omega
    have hcalc := @calculates_zeroTest σ T frame (addr + code.size + 1)
      { s₁ with pc := addr + code.size + 1, registers := s₁.registers.set .r0 a, stack := stack }
      st₁.world true htest rfl
    have hbool : (if a.isZero then true else !true) = a.isZero := by cases a.isZero <;> rfl
    rw [Registers.get_set_self, hbool] at hcalc
    rw [hsize]
    refine Simulates.prepend ?_ hrun
    refine (simulates_calculated (r := .ok (.bool a.isZero)) hc₂ hcalc).mono ?_
    rintro v st' s' ⟨hv, hat⟩
    exact ⟨ty_of_foldUnary hty hv, hat⟩
  | pos =>
    have hsize : (unaryCode .pos code).size = code.size := by simp [unaryCode]
    rw [hsize]
    exact simulates_pure ⟨ty_of_foldUnary hty rfl, hc₁⟩
  | inc | dec => cases hop

/-! ## Expressions -/

/-- **Expressions are simulated**, if calls are. -/
theorem evaluates (A : T.Accord frame scope)
    (hcall : A.Calls → ∀ callee args loc, (∀ a ∈ args, A.Evaluates Γ call n fn a) →
      A.Evaluates Γ call n fn (.call callee args loc)) (e : Expr)
    (hfree : ¬A.Calls → e.isCallFree = true) (hs : ∀ name, e.Mentions name → A.Sees name)
    (hw : ∀ name, e.Assigns name → A.Writes name) : A.Evaluates Γ call n fn e := by
  -- what is assumed of the names of the expression is passed down to each part
  induction e using Expr.induct with
  | literal v loc =>
    intro sup sup' code ty addr s st top hlower hx hplaced hc
    obtain ⟨c, rfl, hlow⟩ := lowered_of_lower hlower
    cases hlow
    rw [placed_located] at hplaced
    rw [eval]
    exact simulates_ok (runs_push hplaced.1 ⟨rfl, rfl, rfl⟩ (A.pc_eq hc) rfl)
      ⟨rfl, A.push hc _ v .refl⟩
  | ident name loc =>
    intro sup sup' code ty addr s st top hlower hx hplaced hc
    obtain ⟨c, rfl, hlow⟩ := lowered_of_lower hlower
    rw [placed_located] at hplaced
    cases hlow with
    | ident hsrc =>
      obtain ⟨u, hu, -, rfl, rfl⟩ := scalarOperand_eq_ok hsrc
      rw [eval]
      exact A.simulates_fetch (hs name (.ident loc)) hu hc rfl hplaced.1
  | binary op left right loc ihl ihr =>
    intro sup sup' code ty addr s st top hlower hx hplaced hc
    have hfree' (h : ¬A.Calls) : left.isCallFree = true ∧ right.isCallFree = true := by
      simpa [Expr.isCallFree] using hfree h
    have hleft := ihl (fun h => (hfree' h).1) (fun _ h => hs _ (.left h)) fun _ h => hw _ (.left h)
    have hright := ihr (fun h => (hfree' h).2) (fun _ h => hs _ (.right h))
      fun _ h => hw _ (.right h)
    obtain ⟨c, rfl, hlow⟩ := lowered_of_lower hlower
    rw [placed_located] at hplaced
    rw [Code.size_located]
    cases hlow with
    | binary hop hl hr hty => exact evaluates_binary hop hleft hright hl hr hty hx hplaced hc
    | and hl hr hty =>
      rw [boolean_of_logical rfl hty]
      exact evaluates_and hleft hright hl hr hx hplaced hc
    | or hl hr hty =>
      rw [boolean_of_logical rfl hty]
      exact evaluates_or hleft hright hl hr hx hplaced hc
  | unary op argument prefixed loc iha ihi =>
    intro sup sup' code ty addr s st top hlower hx hplaced hc
    have hfree' (h : ¬A.Calls) : argument.isCallFree = true := by
      simpa [Expr.isCallFree] using hfree h
    obtain ⟨c, rfl, hlow⟩ := lowered_of_lower hlower
    rw [placed_located] at hplaced
    rw [Code.size_located]
    cases hlow with
    | unary hop hl hty =>
      have ha := iha hfree' (fun _ h => hs _ (.argument h)) fun _ h => hw _ (.argument h)
      exact evaluates_unary hop ha hl hty hx hplaced hc
    | @step _ _ _ _ address dest t _ _ hop hst hty =>
      obtain ⟨rfl, hnumber⟩ := number_of_step hop hty
      rw [placed_append] at hplaced
      rw [eval_step Γ call hop, Code.size_append, ← Nat.add_assoc]
      refine Simulates.bind (simulates_stepped ?_ hst hx hplaced.1 hc) ?_
      · rintro base index loc' rfl
        refine ihi base index loc' rfl (fun h => ?_) (fun _ h => hs _ (.argument (.index h)))
          fun _ h => hw _ (.argument (.index h))
        have := hfree' h
        simp only [Expr.isCallFree, Bool.and_eq_true] at this
        exact this.2
      · rintro ⟨name, i⟩ st₁ s₁ ⟨u, index, rfl, htarget, hu, rfl, hindex, hc₁⟩
        have hsize : (changeCode op prefixed true (u.slot.operand index)).size = 2 := by
          cases prefixed <;> rfl
        rw [hsize]
        exact simulates_stepPlace (hw name (.step hop htarget)) hu hnumber
          (hs name (.argument (Expr.mentions_of_target? htarget))) hc₁ hindex hplaced.2
  | assign left right loc ihi ihr =>
    intro sup sup' code ty addr s st top hlower hx hplaced hc
    have hfree' (h : ¬A.Calls) : left.isCallFree = true ∧ right.isCallFree = true := by
      simpa [Expr.isCallFree] using hfree h
    have hright := ihr (fun h => (hfree' h).2) (fun _ h => hs _ (.assigned h))
      fun _ h => hw _ (.assigned h)
    obtain ⟨c, rfl, hlow⟩ := lowered_of_lower hlower
    rw [placed_located] at hplaced
    rw [Code.size_located]
    cases hlow with
    | @assign _ _ _ code dest _ _ ha =>
      rw [placed_append] at hplaced
      rw [eval_assign, Code.size_append, ← Nat.add_assoc]
      refine (simulates_assigned ?_ hright (fun _ h => hs _ (.assigned h))
        (fun name h => hw name (.assign h)) ha hx hplaced.1 hc).append ?_
      · rintro base index loc' rfl
        refine ihi base index loc' rfl (fun h => ?_) (fun _ h => hs _ (.target (.index h)))
          fun _ h => hw _ (.target (.index h))
        have := (hfree' h).1
        simp only [Expr.isCallFree, Bool.and_eq_true] at this
        exact this.2
      · rintro x st₁ s₁ ⟨hxty, hc₁, hread⟩
        exact ⟨1, _, runs_push hplaced.2.1 ⟨rfl, rfl, rfl⟩ (A.pc_eq hc₁) (hread _ _), hxty,
          A.push hc₁ _ x .refl⟩
  | call callee args loc ih =>
    by_cases hcalls : A.Calls
    · refine hcall hcalls callee args loc ?_
      intro a ha
      exact ih a ha (fun h => absurd hcalls h) (fun _ h => hs _ (.passed ha h))
        fun _ h => hw _ (.passed ha h)
    · cases hfree hcalls
  | member base index loc ih =>
    intro sup sup' code ty addr s st top hlower hx hplaced hc
    have hindex := ih (fun h => by have := hfree h; simp_all [Expr.isCallFree])
      (fun _ h => hs _ (.index h)) fun _ h => hw _ (.index h)
    obtain ⟨c, rfl, hlow⟩ := lowered_of_lower hlower
    rw [placed_located] at hplaced
    rw [Code.size_located]
    cases hlow with
    | @member _ _ _ slot _ indexTy indexCode _ hslot hl hint =>
      obtain ⟨name, loc', u, rfl, hu, -, rfl, rfl⟩ := arraySlot_eq_ok hslot
      rw [placed_append] at hplaced
      obtain ⟨hpi, h₀, h₁, -⟩ := hplaced
      rw [eval, Code.size_append, ← Nat.add_assoc]
      refine Simulates.bind (simulates_placeOf hindex hl hint hx hpi hc) ?_
      rintro p st₁ s₁ ⟨v, k, hk, rfl, hc₁⟩
      obtain ⟨s₂, hrun, hc₂, hindex₂, -⟩ := runs_popIndex (w := st₁.world) hk hc₁ h₀
      exact (A.simulates_fetch (hs name (.base (.ident loc'))) hu hc₂ hindex₂ h₁).prepend hrun

end Accord

end Target

end Stepwise
