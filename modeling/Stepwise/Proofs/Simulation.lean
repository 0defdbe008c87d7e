import Mathlib
import Stepwise.Proofs.Coherence
import Stepwise.Proofs.Evaluation

/-!
# Simulation of evaluations

The machine simulates an evaluation if it runs to a matching state when the evaluation ends, to the
same fault when it stops with one, and on and on when it runs out of fuel. Simulations are put
together as evaluations are, so a proof about generated code follows the evaluator line by line.

## Main definitions

* `Target`: a linked program on a machine
* `Target.Runs`, `Target.Fails`: runs of the machine, whatever the number of steps before
* `Target.Simulates`: the machine simulates an evaluation

## Main results

* `Simulates.bind`: one evaluation after the other
* `runs_push`, `runs_mov` and so on: what each instruction of generated code does
-/

namespace Stepwise

open Reference

/-- The machine in another state of itself and of its world. -/
def Machine.inState {σ : Type} (m : Machine σ) (s : State) (w : σ) : Machine σ :=
  { m with state := s, world := w }

/-- The state with another number of steps behind it. -/
def State.after (s : State) (t : Nat) : State := { s with steps := t }

/-- A row lies in memory from an address on. -/
def State.Carries (s : State) (base : Base) (offset : Int) (row : Row) : Prop :=
  ∀ (k : Nat) v, row.values[k]? = some v → s.slot? base (s.origin base + offset + k) = some v

/-- A linked program on a machine without hooks: the addresses of its labels, its global region and
the names of its global variables. -/
structure Target (σ : Type) where
  machine : Machine σ
  labels : Table Nat
  layout : GlobalLayout
  names : Table Symbol
  quiet : machine.hooks = []
  short : machine.image.code.size < 2 ^ 63
  label_le : ∀ {l a}, labels.get? l = some a → a ≤ machine.image.code.size
  sound : layout.Sound names

namespace Target

variable {σ : Type} (T : Target σ)

/-- The program with its labels. -/
def program : Assembled := ⟨T.machine.image.code, T.labels⟩

/-- The machine gets from one state and world to another in so many steps. -/
def Runs (k : Nat) (s : State) (w : σ) (s' : State) (w' : σ) : Prop :=
  ∀ t, Machine.Steps k (T.machine.inState (s.after t) w) (T.machine.inState (s'.after (t + k)) w')

/-- The next instruction fails. -/
def Fails (s : State) (w : σ) (e : Fault) : Prop :=
  ∀ t, (T.machine.inState (s.after t) w).executeNext =
    .error e (T.machine.inState (s.after t) w)

/-- The machine simulates an evaluation with this result from a state and a world on, and ends in a
state that `Q` relates to the result. If the evaluation stops with a fault, the machine fails in a
state that `stop` relates to it, and if it is out of fuel, the machine runs for at least `n` steps.
Nothing is asked after an index outside of its array or a missing return, and a program is never
stuck. -/
def Simulates {α : Type} (stop : Fault → Store σ → State → Prop) (n : Nat)
    (r : EStateM.Result Stop (Store σ) α) (s : State) (w : σ)
    (Q : α → Store σ → State → Prop) : Prop :=
  match r with
  | .ok a st => ∃ k s', T.Runs k s w s' st.world ∧ Q a st s'
  | .error (.fault e) st =>
    ∃ k s', T.Runs k s w s' st.world ∧ T.Fails s' st.world e ∧ stop e st s'
  | .error .outOfFuel st => ∃ k s', n ≤ k ∧ T.Runs k s w s' st.world
  | .error .outside _ | .error .noReturn _ => True
  | .error .stuck _ => False

variable {T}

/-! ## Rules -/

section Rules

variable {α β : Type} {k n : Nat} {s s' s'' : State} {w w' w'' : σ} {st : Store σ}
  {r : EStateM.Result Stop (Store σ) α} {Q Q' : α → Store σ → State → Prop}
  {R : β → Store σ → State → Prop} {stop : Fault → Store σ → State → Prop}

theorem Runs.refl : T.Runs 0 s w s w := fun _ => .refl _

theorem Runs.trans {l : Nat} (h : T.Runs k s w s' w') (h' : T.Runs l s' w' s'' w'') :
    T.Runs (k + l) s w s'' w'' := by
  intro t
  have hrest := h' (t + k)
  rw [Nat.add_assoc] at hrest
  exact (h t).trans hrest

/-- The machine may run before the evaluation starts. -/
theorem Simulates.after (h : T.Simulates stop n r s' w' Q) (hrun : T.Runs k s w s' w') :
    T.Simulates stop (n + k) r s w Q := by
  unfold Simulates at h ⊢
  split at h
  · obtain ⟨l, s'', h₁, hq⟩ := h
    exact ⟨k + l, s'', hrun.trans h₁, hq⟩
  · obtain ⟨l, s'', h₁, hfail, hstop⟩ := h
    exact ⟨k + l, s'', hrun.trans h₁, hfail, hstop⟩
  · obtain ⟨l, s'', hl, h₁⟩ := h
    exact ⟨k + l, s'', by omega, hrun.trans h₁⟩
  · trivial
  · trivial
  · exact h

theorem Simulates.fuel {m : Nat} (h : T.Simulates stop n r s w Q) (hm : m ≤ n) :
    T.Simulates stop m r s w Q := by
  unfold Simulates at h ⊢
  split at h
  case h_3 =>
    obtain ⟨l, s', hl, hrest⟩ := h
    exact ⟨l, s', hm.trans hl, hrest⟩
  all_goals exact h

/-- The machine may run before the evaluation starts, which only adds steps. -/
theorem Simulates.prepend (h : T.Simulates stop n r s' w' Q) (hrun : T.Runs k s w s' w') :
    T.Simulates stop n r s w Q :=
  (h.after hrun).fuel (Nat.le_add_right n k)

/-- The machine may run on when the evaluation has ended. -/
theorem Simulates.append (h : T.Simulates stop n r s w Q)
    (hQ : ∀ a st s', Q a st s' → ∃ k s'', T.Runs k s' st.world s'' st.world ∧ Q' a st s'') :
    T.Simulates stop n r s w Q' := by
  unfold Simulates at h ⊢
  split at h
  case h_1 =>
    obtain ⟨k, s', hrun, hq⟩ := h
    obtain ⟨l, s'', hrun', hq'⟩ := hQ _ _ _ hq
    exact ⟨k + l, s'', hrun.trans hrun', hq'⟩
  all_goals exact h

theorem Simulates.mono (h : T.Simulates stop n r s w Q) (hQ : ∀ a st s', Q a st s' → Q' a st s') :
    T.Simulates stop n r s w Q' :=
  h.append fun a st s' hq => ⟨0, s', .refl, hQ a st s' hq⟩

theorem simulates_ok {a : α} (hrun : T.Runs k s w s' st.world) (hq : Q a st s') :
    T.Simulates stop n (.ok a st) s w Q := ⟨k, s', hrun, hq⟩

theorem simulates_pure {a : α} (hq : Q a st s) :
    T.Simulates stop n ((pure a : Eval σ α) st) s st.world Q := ⟨0, s, .refl, hq⟩

/-- **One evaluation after the other.** -/
theorem Simulates.bind {x : Eval σ α} {f : α → Eval σ β} (hx : T.Simulates stop n (x st) s w Q)
    (hf : ∀ a st' s', Q a st' s' → T.Simulates stop n (f a st') s' st'.world R) :
    T.Simulates stop n ((x >>= f) st) s w R := by
  simp only [Bind.bind, EStateM.bind]
  cases hr : x st with
  | ok a st' =>
    rw [hr] at hx
    obtain ⟨k, s', hrun, hq⟩ := hx
    exact (hf a st' s' hq).prepend hrun
  | error e st' =>
    rw [hr] at hx
    cases e <;> exact hx

end Rules

/-! ## Instructions -/

/-- An instruction of generated code stands at an address, its variables in the given frame. -/
def Stands (T : Target σ) (frame : FrameLayout) (addr : Nat) (i : Instr) : Prop :=
  T.program.code[addr]?.map Instr.bare = some (i.settle T.labels frame addr).bare

/-- The operation and the operands of an instruction. -/
def Reads (i : Instr) (op : OpCode) (dest src : Option Operand) : Prop :=
  i.op = op ∧ i.dest = dest ∧ i.src = src

section Instructions

variable {frame : FrameLayout} {addr target : Nat} {s s' : State} {w w' : σ} {i : Instr}
  {op : OpCode} {o o' : Operand} {x : Reg} {a b v : Value} {e : Fault} {l : String}

theorem Stands.lt (h : T.Stands frame addr i) : addr < T.machine.image.code.size := by
  obtain ⟨j, hj, -⟩ := exists_of_placed h
  exact (Array.getElem?_eq_some_iff.mp hj).1

/-- An instruction of a given form has one decoded form, wherever it came from. -/
def Decodes (T : Target σ) (frame : FrameLayout) (addr : Nat) (i : Instr) (operation : Operation) :
    Prop :=
  ∀ j : Instr, j.op = i.op → j.dest = i.dest.map (Operand.settle T.labels frame i.op addr) →
    j.src = i.src.map (Operand.settle T.labels frame i.op addr) → j.decode = .ok operation

theorem runs_one {operation : Operation} (h : T.Stands frame addr i) (hpc : s.pc = addr)
    (hd : T.Decodes frame addr i operation)
    (ht : ∀ j t, Machine.transition T.machine.hosts j operation (s.after t) w =
      .ok (s'.after (t + 1), w')) : T.Runs 1 s w s' w' := by
  intro t
  obtain ⟨j, hj, hop, hdest, hsrc, -⟩ := exists_of_placed h
  refine .one (Machine.executeNext_eq_ok_iff.mpr
    ⟨j, operation, _, _, ?_, hd j hop hdest hsrc, ht j t, ?_⟩)
  · rw [← hpc] at hj
    exact hj
  · simp [Machine.moved, Machine.inState, T.quiet]

theorem fails_one {operation : Operation} (h : T.Stands frame addr i) (hpc : s.pc = addr)
    (hd : T.Decodes frame addr i operation)
    (ht : ∀ j t, Machine.transition T.machine.hosts j operation (s.after t) w = .error e) :
    T.Fails s w e := by
  intro t
  obtain ⟨j, hj, hop, hdest, hsrc, -⟩ := exists_of_placed h
  rw [← hpc] at hj
  exact Machine.executeNext_eq_error_iff.mpr
    ⟨rfl, .inr ⟨j, hj, .inr ⟨operation, hd j hop hdest hsrc, ht j t⟩⟩⟩

/-- The steps behind a state do not show in what it reads. -/
theorem read_after (s : State) (t : Nat) (o : Operand) : (s.after t).read o = s.read o := by
  cases o <;> rfl

theorem write_after (s : State) (t : Nat) (o : Operand) (v : Value) :
    (s.after t).write o v = (s.write o v).map (·.after t) := by
  cases o with
  | ptr p =>
    have hlocate : (s.after t).locate p = s.locate p := rfl
    simp only [State.write, hlocate]
    cases s.locate p with
    | error e => rfl
    | ok r =>
      simp only [bind, Except.bind]
      cases liftConversion (coerce r.2.ty v) with
      | error e => rfl
      | ok new => cases p.base <;> rfl
  | _ => rfl

theorem write_after_ok (hw : s.write o v = .ok s') (t : Nat) :
    (s.after t).write o v = .ok (s'.after t) := by
  rw [write_after, hw]
  rfl

theorem runs_push (h : T.Stands frame addr i) (hi : Reads i .push (some o) none) (hpc : s.pc = addr)
    (hv : s.read (o.settle T.labels frame .push addr) = .ok v) :
    T.Runs 1 s w { s with pc := addr + 1, stack := s.stack.push v } w := by
  obtain ⟨hop, hdest, hsrc⟩ := hi
  have hd : T.Decodes frame addr i (.push (o.settle T.labels frame .push addr)) := by
    intro j h₁ h₂ h₃
    simp_all [Instr.decode]
  refine runs_one h hpc hd fun j t => bind_eq_ok.mpr ⟨v, hv ▸ read_after s t _, ?_⟩
  subst hpc
  rfl

theorem runs_pop (h : T.Stands frame addr (.pop (.reg x))) (hpc : s.pc = addr) {stack : Array Value}
    (hs : s.stack = stack.push v) :
    T.Runs 1 s w
      { s with pc := addr + 1, stack := stack, registers := s.registers.set x v } w := by
  have hd : T.Decodes frame addr (.pop (.reg x)) (.pop (.reg x)) := by
    intro j h₁ h₂ h₃
    simp_all [Instr.decode, Instr.pop, Instr.unary, Operand.settle]
  refine runs_one h hpc hd fun j t => ?_
  obtain ⟨pc, bp, registers, st, globals, frames, steps⟩ := s
  simp only at hs hpc
  subst hs hpc
  simp only [Machine.transition, State.after, Array.back?_push]
  simp [Machine.dropOne, State.write, State.setRegister, Machine.advance, bind, Except.bind]

section Mov

variable (h : T.Stands frame addr i) (hi : Reads i .mov (some o) (some o')) (hpc : s.pc = addr)
  (hv : s.read (o'.settle T.labels frame .mov addr) = .ok v)

include hi in
theorem decodes_mov : T.Decodes frame addr i (.move (o.settle T.labels frame .mov addr)
    (o'.settle T.labels frame .mov addr)) := by
  obtain ⟨hop, hdest, hsrc⟩ := hi
  intro j h₁ h₂ h₃
  simp_all [Instr.decode]

include h hi hpc hv

theorem runs_mov (hw : s.write (o.settle T.labels frame .mov addr) v = .ok s') :
    T.Runs 1 s w { s' with pc := addr + 1 } w := by
  refine runs_one h hpc (decodes_mov hi) fun j t => bind_eq_ok.mpr ⟨v, hv ▸ read_after s t _,
    bind_eq_ok.mpr ⟨_, write_after_ok hw t, ?_⟩⟩
  subst hpc
  rfl

end Mov

/-- The operations that combine two operands. -/
def isBinary : OpCode → Bool
  | .add | .sub | .mul | .div | .and | .or | .xor | .cp => true
  | _ => false

/-- An operation on two registers is decoded as such, wherever it stands. -/
theorem decode_binary {y : Reg} (hop : isBinary op = true) (labels : Table Nat) (pc : Nat)
    (j : Instr) (h₁ : j.op = op)
    (h₂ : j.dest = some (Operand.settle labels frame op pc (.reg x)))
    (h₃ : j.src = some (Operand.settle labels frame op pc (.reg y))) :
    j.decode = .ok (.compute op (.reg x) (.reg y)) := by
  cases op <;> simp_all [isBinary, Instr.decode, Operand.settle]

section Compute

variable {y : Reg} (h : T.Stands frame addr (.binary op (.reg x) (.reg y)))
  (hop : isBinary op = true) (hpc : s.pc = addr)

include hop in
theorem decodes_binary : T.Decodes frame addr (.binary op (.reg x) (.reg y))
    (.compute op (.reg x) (.reg y)) :=
  decode_binary hop T.labels addr

include h hop hpc

theorem runs_binary (hv : alu op (s.registers.get x) (s.registers.get y) = .ok v) :
    T.Runs 1 s w { s with pc := addr + 1, registers := s.registers.set x v } w := by
  refine runs_one h hpc (decodes_binary hop) fun j t => bind_eq_ok.mpr ⟨_, rfl,
    bind_eq_ok.mpr ⟨_, rfl, bind_eq_ok.mpr ⟨v, liftArithmetic_eq_ok.mpr hv, ?_⟩⟩⟩
  subst hpc
  rfl

theorem fails_binary {cause : ArithmeticError}
    (hv : alu op (s.registers.get x) (s.registers.get y) = .error cause) :
    T.Fails s w (.arithmetic cause) := by
  refine fails_one h hpc (decodes_binary hop) fun j t => bind_eq_error.mpr (.inr ⟨_, rfl,
    bind_eq_error.mpr (.inr ⟨_, rfl, bind_eq_error.mpr (.inl ?_)⟩)⟩)
  exact congrArg liftArithmetic hv

end Compute

section Change

variable {step : UnaryOp} (h : T.Stands frame addr (.unary (Lowering.stepCode step) o))
  (hpc : s.pc = addr) (ha : s.read (o.settle T.labels frame (Lowering.stepCode step) addr) = .ok a)

theorem decodes_step : T.Decodes frame addr (.unary (Lowering.stepCode step) o)
    (.change (Lowering.stepCode step) (o.settle T.labels frame (Lowering.stepCode step) addr)) := by
  intro j h₁ h₂ h₃
  unfold Lowering.stepCode at *
  split at h₁ <;> simp_all [Instr.decode, Instr.unary]

include h hpc ha

theorem runs_step (hv : increment (Lowering.stepCode step) a = .ok v)
    (hw : s.write (o.settle T.labels frame (Lowering.stepCode step) addr) v = .ok s') :
    T.Runs 1 s w { s' with pc := addr + 1 } w := by
  refine runs_one h hpc decodes_step fun j t => bind_eq_ok.mpr ⟨a, ha ▸ read_after s t _,
    bind_eq_ok.mpr ⟨v, liftArithmetic_eq_ok.mpr hv, bind_eq_ok.mpr ⟨_, write_after_ok hw t, ?_⟩⟩⟩
  subst hpc
  rfl

end Change

theorem runs_ldi (h : T.Stands frame addr (.ldi x v)) (hpc : s.pc = addr) :
    T.Runs 1 s w { s with pc := addr + 1, registers := s.registers.set x v } w := by
  have hd : T.Decodes frame addr (.ldi x v) (.load x v) := by
    intro j h₁ h₂ h₃
    simp_all [Instr.decode, Instr.ldi, Instr.binary, Operand.settle]
  refine runs_one h hpc hd fun j t => ?_
  subst hpc
  rfl

/-! ### Jumps -/

/-- A jump to a label goes to its address, if it is taken. -/
theorem runs_jump {relative : Bool} {n : Int64} {condition : Option Operand} {taken : Bool}
    (h : T.Stands frame addr i) (hpc : s.pc = addr)
    (hd : T.Decodes frame addr i (.jump relative (.imm (.int n)) condition))
    (ht : ∀ t, Machine.isTaken (s.after t) condition = .ok taken)
    (hn : (if relative then (addr : Int) + n.toInt else n.toInt) = target) :
    T.Runs 1 s w { s with pc := if taken then target else addr + 1 } w := by
  refine runs_one h hpc hd fun j t => bind_eq_ok.mpr ⟨taken, ht t, ?_⟩
  subst hpc
  cases taken with
  | false => rfl
  | true =>
    rw [if_pos rfl]
    refine bind_eq_ok.mpr ⟨n, rfl, bind_eq_ok.mpr ⟨target, ?_, rfl⟩⟩
    show Machine.jumpTarget (if relative then (s.pc : Int) + n.toInt else n.toInt) = .ok target
    rw [hn, Setting.jumpTarget_natCast]

theorem runs_rjmp (h : T.Stands frame addr (.rjmp (.label l))) (hpc : s.pc = addr)
    (hl : T.labels.get? l = some target) : T.Runs 1 s w { s with pc := target } w := by
  have hd : T.Decodes frame addr (.rjmp (.label l))
      (.jump true (.imm (.int (Int64.ofInt (labelTarget .rjmp addr target)))) none) := by
    intro j h₁ h₂ h₃
    simp_all [Instr.decode, Instr.rjmp, Instr.unary, Operand.settle]
  have hn := toInt_labelTarget_rjmp T.short h.lt (T.label_le hl)
  exact runs_jump h hpc hd (fun _ => rfl) hn

theorem runs_rjmpIfZero (h : T.Stands frame addr (.rjmpIfZero (.label l) x)) (hpc : s.pc = addr)
    (hl : T.labels.get? l = some target) :
    T.Runs 1 s w
      { s with pc := if (s.registers.get x).isZero then target else addr + 1 } w := by
  have hd : T.Decodes frame addr (.rjmpIfZero (.label l) x)
      (.jump true (.imm (.int (Int64.ofInt (labelTarget .rjmp addr target)))) (some (.reg x))) := by
    intro j h₁ h₂ h₃
    simp_all [Instr.decode, Instr.rjmpIfZero, Instr.binary, Operand.settle]
  have hn := toInt_labelTarget_rjmp T.short h.lt (T.label_le hl)
  exact runs_jump h hpc hd (fun _ => rfl) hn

theorem runs_skip (h : T.Stands frame addr (.rjmpIfZero (.imm (.int 2)) x)) (hpc : s.pc = addr) :
    T.Runs 1 s w
      { s with pc := if (s.registers.get x).isZero then addr + 2 else addr + 1 } w := by
  have hd : T.Decodes frame addr (.rjmpIfZero (.imm (.int 2)) x)
      (.jump true (.imm (.int 2)) (some (.reg x))) := by
    intro j h₁ h₂ h₃
    simp_all [Instr.decode, Instr.rjmpIfZero, Instr.binary, Operand.settle]
  exact runs_jump h hpc hd (fun _ => rfl) rfl

end Instructions

end Target

end Stepwise
