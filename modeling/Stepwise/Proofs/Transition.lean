import Mathlib
import Stepwise.Machine.Recorder
import Stepwise.Machine.Step
import Stepwise.Proofs.Success

/-!
# Steps as transitions

Execution is written as an action that may fail half-way. Here it is a function on the state and
the world: an instruction either fails, and then nothing has changed, or gives the next state and
the next world. Every fact about runs is drawn from this form.

## Main definitions

* `transition`: the next state and world, or the fault
* `Effect`: the operations that succeed, with what they find
* `Machine.Steps`: runs of a given length

## Main results

* `executeNext_eq`: execution is the transition of the decoded instruction
* `failed_step_changes_nothing`: a fault leaves the machine as it was
-/

namespace Stepwise.Machine

variable {σ : Type}

/-- The integer that an operand names. -/
def integer (i : Instr) (s : State) (o : Operand) : Except Fault Int64 :=
  match s.read o with
  | .error e => .error e
  | .ok v =>
    match v.toInt? with
    | some n => .ok n
    | none => .error (.malformed i.text .integerOperand)

/-- Whether a jump with this condition is taken. -/
def isTaken (s : State) : Option Operand → Except Fault Bool
  | none => .ok true
  | some c =>
    match s.read c with
    | .ok v => .ok v.isZero
    | .error e => .error e

/-- The arguments on top of the stack, the first one first. -/
def topArguments (argc : Nat) (s : State) : List Value :=
  (s.stack.drop (s.stack.size - argc)).toList.reverse

/-- The state without so many values on top of the stack. -/
def dropTop (argc : Nat) (s : State) : State :=
  { s with stack := s.stack.shrink (s.stack.size - argc) }

/-- The state without its top value. -/
def dropOne (s : State) : State := { s with stack := s.stack.pop }

/-- The state after the return from the innermost call. -/
def leave (frame : CallFrame) (rest : List CallFrame) (s : State) : State :=
  { s with frames := rest, stack := s.stack.shrink (s.bp - frame.argc), bp := frame.bp }

/-- The call of a host function. -/
def hostTransition (f : HostFunction σ) (argc : Nat) (s : State) (w : σ) : State × σ :=
  (advance s.pc .next ((dropTop argc s).setRegister .rv (f (topArguments argc s) w).1),
    (f (topArguments argc s) w).2)

/-- The state and the world after an operation. -/
def transition (hosts : Table (HostFunction σ)) (i : Instr) (op : Operation) (s : State) (w : σ) :
    Except Fault (State × σ) :=
  match op with
  | .compute op dest src => do
    let a ← s.read dest
    let b ← s.read src
    let v ← liftArithmetic (alu op a b)
    let s' ← s.write dest v
    .ok (advance s.pc .next s', w)
  | .change op dest => do
    let a ← s.read dest
    let v ← liftArithmetic (increment op a)
    let s' ← s.write dest v
    .ok (advance s.pc .next s', w)
  | .move dest src => do
    let v ← s.read src
    let s' ← s.write dest v
    .ok (advance s.pc .next s', w)
  | .load dest v => .ok (advance s.pc .next (s.setRegister dest v), w)
  | .push src => do
    let v ← s.read src
    .ok (advance s.pc .next (s.push v), w)
  | .pop dest =>
    match s.stack.back? with
    | none => .error .stackUnderflow
    | some v => do
      let s' ← (dropOne s).write dest v
      .ok (advance s.pc .next s', w)
  | .jump relative target condition => do
    if ← isTaken s condition then
      let t ← integer i s target
      let t ← jumpTarget (if relative then (s.pc : Int) + t.toInt else t.toInt)
      .ok (advance s.pc (.jump t) s, w)
    else .ok (advance s.pc .next s, w)
  | .call target argc => do
    let n ← integer i s argc
    let argc ← argumentCount i n
    if s.stack.size < argc then .error .stackUnderflow
    else match target with
      | .host name =>
        match hosts.get? name with
        | none => .error (.unregistered name)
        | some f => .ok (hostTransition f argc s w)
      | target => do
        let t ← integer i s target
        let t ← jumpTarget t.toInt
        .ok (advance s.pc (.jump t) (enter s.pc argc s), w)
  | .ret =>
    match s.frames with
    | [] => .error .noCallFrame
    | frame :: rest =>
      if s.bp < frame.argc then .error (.malformed i.text .lowFrame)
      else .ok (advance s.pc (.jump frame.returnPc) (leave frame rest s), w)
  | .nop => .ok (advance s.pc .next s, w)

/-- The operations that succeed: what they find in a state, and the state that they lead to. -/
inductive Effect (hosts : Table (HostFunction σ)) (i : Instr) (s : State) (w : σ) :
    Operation → State → σ → Prop
  | compute {op : OpCode} {dest src : Operand} {a b v : Value} {s' : State} :
    s.read dest = .ok a → s.read src = .ok b → liftArithmetic (alu op a b) = .ok v →
    s.write dest v = .ok s' → Effect hosts i s w (.compute op dest src) (advance s.pc .next s') w
  | change {op : OpCode} {dest : Operand} {a v : Value} {s' : State} : s.read dest = .ok a →
    liftArithmetic (increment op a) = .ok v → s.write dest v = .ok s' →
    Effect hosts i s w (.change op dest) (advance s.pc .next s') w
  | move {dest src : Operand} {v : Value} {s' : State} : s.read src = .ok v →
    s.write dest v = .ok s' → Effect hosts i s w (.move dest src) (advance s.pc .next s') w
  | load {dest : Reg} {v : Value} :
    Effect hosts i s w (.load dest v) (advance s.pc .next (s.setRegister dest v)) w
  | push {src : Operand} {v : Value} : s.read src = .ok v →
    Effect hosts i s w (.push src) (advance s.pc .next (s.push v)) w
  | pop {dest : Operand} {v : Value} {s' : State} : s.stack.back? = some v →
    (dropOne s).write dest v = .ok s' → Effect hosts i s w (.pop dest) (advance s.pc .next s') w
  | jump {relative : Bool} {target : Operand} {condition : Option Operand} {n : Int64} {t : Nat} :
    isTaken s condition = .ok true → integer i s target = .ok n →
    jumpTarget (if relative then (s.pc : Int) + n.toInt else n.toInt) = .ok t →
    Effect hosts i s w (.jump relative target condition) (advance s.pc (.jump t) s) w
  | pass {relative : Bool} {target : Operand} {condition : Option Operand} :
    isTaken s condition = .ok false →
    Effect hosts i s w (.jump relative target condition) (advance s.pc .next s) w
  | host {name : String} {count : Operand} {n : Int64} {argc : Nat} {f : HostFunction σ} :
    integer i s count = .ok n → argumentCount i n = .ok argc → argc ≤ s.sp →
    hosts.get? name = some f → Effect hosts i s w (.call (.host name) count)
      (hostTransition f argc s w).1 (hostTransition f argc s w).2
  | call {target count : Operand} {n t : Int64} {argc pc : Nat} : (∀ name, target ≠ .host name) →
    integer i s count = .ok n → argumentCount i n = .ok argc → argc ≤ s.sp →
    integer i s target = .ok t → jumpTarget t.toInt = .ok pc →
    Effect hosts i s w (.call target count) (advance s.pc (.jump pc) (enter s.pc argc s)) w
  | ret {frame : CallFrame} {rest : List CallFrame} : s.frames = frame :: rest →
    frame.argc ≤ s.bp →
    Effect hosts i s w .ret (advance s.pc (.jump frame.returnPc) (leave frame rest s)) w
  | nop : Effect hosts i s w .nop (advance s.pc .next s) w

/-- **An operation that succeeds has one of the effects.** -/
theorem effect_of_transition {hosts : Table (HostFunction σ)} {i : Instr} {op : Operation}
    {s s' : State} {w w' : σ} (h : transition hosts i op s w = .ok (s', w')) :
    Effect hosts i s w op s' w' := by
  -- each action is taken apart into the actions before it, all of which have succeeded
  cases op with
  | compute op dest src =>
    simp only [transition, bind_eq_ok] at h
    obtain ⟨a, ha, b, hb, v, hv, s₁, hw, ⟨⟩⟩ := h
    exact .compute ha hb hv hw
  | change op dest =>
    simp only [transition, bind_eq_ok] at h
    obtain ⟨a, ha, v, hv, s₁, hw, ⟨⟩⟩ := h
    exact .change ha hv hw
  | move dest src =>
    simp only [transition, bind_eq_ok] at h
    obtain ⟨v, hv, s₁, hw, ⟨⟩⟩ := h
    exact .move hv hw
  | load dest v =>
    cases h
    exact .load
  | push src =>
    simp only [transition, bind_eq_ok] at h
    obtain ⟨v, hv, ⟨⟩⟩ := h
    exact .push hv
  | pop dest =>
    simp only [transition] at h
    split at h
    · cases h
    next v hv =>
      simp only [bind_eq_ok] at h
      obtain ⟨s₁, hw, ⟨⟩⟩ := h
      exact .pop hv hw
  | jump relative target condition =>
    simp only [transition, bind_eq_ok] at h
    obtain ⟨taken, htaken, h⟩ := h
    cases taken with
    | true =>
      simp only [if_true, bind_eq_ok] at h
      obtain ⟨n, hn, t, ht, ⟨⟩⟩ := h
      exact .jump htaken hn ht
    | false =>
      cases h
      exact .pass htaken
  | call target count =>
    simp only [transition, bind_eq_ok] at h
    obtain ⟨n, hn, argc, hargc, h⟩ := h
    split at h
    · cases h
    next hsize =>
      split at h
      · split at h
        · cases h
        next f hf =>
          cases h
          exact .host hn hargc (Nat.le_of_not_lt hsize) hf
      next hhost =>
        simp only [bind_eq_ok] at h
        obtain ⟨t, ht, pc, hpc, ⟨⟩⟩ := h
        exact .call hhost hn hargc (Nat.le_of_not_lt hsize) ht hpc
  | ret =>
    simp only [transition] at h
    split at h
    · cases h
    next frame rest hframes =>
      split at h
      · cases h
      next hlow =>
        cases h
        exact .ret hframes (Nat.le_of_not_lt hlow)
  | nop =>
    cases h
    exact .nop

/-- The machine in another state of itself and of its world, after the hooks have seen the
instruction at `pc`. -/
def moved (m : Machine σ) (pc : Nat) (i : Instr) (s : State) (w : σ) : Machine σ :=
  { m with
    state := s
    world := m.hooks.foldl (fun w hook => hook ⟨s.steps, pc, i, m.image, s⟩ w) w }

/-- What execution makes of a transition: a fault leaves the machine as it was. -/
def deliver (m : Machine σ) (i : Instr) (r : Except Fault (State × σ)) :
    EStateM.Result Fault (Machine σ) Unit :=
  match r with
  | .error e => .error e m
  | .ok (s, w) => .ok () (m.moved m.state.pc i s w)

/-- Goes on with a result, or fails and leaves the machine as it was. -/
def proceed {α β : Type} (m : Machine σ) (r : Except Fault α)
    (f : α → EStateM.Result Fault (Machine σ) β) : EStateM.Result Fault (Machine σ) β :=
  match r with
  | .error e => .error e m
  | .ok a => f a

theorem deliver_bind {α : Type} (m : Machine σ) (i : Instr) (x : Except Fault α)
    (f : α → Except Fault (State × σ)) :
    deliver m i (x >>= f) = proceed m x fun a => deliver m i (f a) := by
  cases x <;> rfl

/-- The rest of the execution once the operation is performed. -/
def conclude (pc : Nat) (i : Instr) (x : Action σ Flow) : Action σ Unit := do
  let flow ← x
  Action.change (advance pc flow)
  notify pc i

theorem conclude_bind {α : Type} (pc : Nat) (i : Instr) (x : Action σ α) (f : α → Action σ Flow) :
    conclude pc i (x >>= f) = x >>= fun a => conclude pc i (f a) := by
  simp only [conclude, bind_assoc]

end Stepwise.Machine

namespace Stepwise.Action

open Machine

variable {σ α β : Type}

/-! ## Actions one after the other -/

theorem ask_bind (query : State → Except Fault α) (f : α → Action σ β) (m : Machine σ) :
    (ask query >>= f) m = proceed m (query m.state) fun a => f a m := by
  simp only [bind, EStateM.bind, ask]
  cases query m.state <;> rfl

theorem ofExcept_bind (r : Except Fault α) (f : α → Action σ β) (m : Machine σ) :
    (ofExcept r >>= f) m = proceed m r fun a => f a m := by
  simp only [bind, EStateM.bind, ofExcept]
  cases r <;> rfl

theorem attempt_bind (g : State → Except Fault State) (f : Unit → Action σ β) (m : Machine σ) :
    (attempt g >>= f) m = proceed m (g m.state) fun s => f () { m with state := s } := by
  simp only [bind, EStateM.bind, attempt]
  cases g m.state <;> rfl

theorem get_bind (f : Machine σ → Action σ β) (m : Machine σ) : (get >>= f) m = f m m := rfl

theorem readInt_bind (i : Instr) (o : Operand) (f : Int64 → Action σ β) (m : Machine σ) :
    (readInt i o >>= f) m = proceed m (integer i m.state o) fun n => f n m := by
  rw [readInt, bind_assoc, ask_bind, integer]
  cases m.state.read o with
  | error e => rfl
  | ok v => cases hn : v.toInt? <;> simp only [proceed, hn] <;> rfl

end Stepwise.Action

namespace Stepwise.Machine

open Stepwise.Action

variable {σ : Type}

/-! ## Execution is the transition of the decoded instruction -/

/-- A failed pop puts the value back. -/
theorem push_dropOne {s : State} {v : Value} (h : s.stack.back? = some v) :
    (dropOne s).push v = s := by
  obtain ⟨xs, hxs⟩ := Array.back?_eq_some_iff.mp h
  cases s
  simp_all [dropOne, State.push]

theorem conclude_pop (i : Instr) (dest : Operand) (m : Machine σ) :
    conclude m.state.pc i (perform m.state.pc i (.pop dest)) m =
      deliver m i (transition m.hosts i (.pop dest) m.state m.world) := by
  simp only [perform, popValue, conclude_bind, bind_assoc, ask_bind, transition]
  cases hb : m.state.stack.back? with
  | none => rfl
  | some v =>
    simp only [proceed, deliver_bind]
    cases hw : (dropOne m.state).write dest v with
    | error e =>
      have hm : { m with state := (dropOne m.state).push v } = m := by rw [push_dropOne hb]
      have hw' : State.write { m.state with stack := m.state.stack.pop } dest v = .error e := hw
      simp only [bind, EStateM.bind, pure, EStateM.pure, tryCatch, tryCatchThe,
        MonadExceptOf.tryCatch, EStateM.tryCatch, change, attempt, hw']
      exact congrArg (EStateM.Result.error e) hm
    | ok s =>
      have hw' : State.write { m.state with stack := m.state.stack.pop } dest v = .ok s := hw
      simp only [bind, EStateM.bind, pure, EStateM.pure, tryCatch, tryCatchThe,
        MonadExceptOf.tryCatch, EStateM.tryCatch, change, attempt, hw']
      rfl

/-- A jump that is taken. -/
theorem conclude_taken (i : Instr) (relative : Bool) (target : Operand) (m : Machine σ) :
    conclude m.state.pc i (do
      let t ← readInt i target
      let t' ← Action.ofExcept (jumpTarget (if relative then (m.state.pc : Int) + t.toInt else t.toInt))
      return .jump t') m =
    deliver m i (do
      let t ← integer i m.state target
      let t' ← jumpTarget (if relative then (m.state.pc : Int) + t.toInt else t.toInt)
      .ok (advance m.state.pc (.jump t') m.state, m.world)) := by
  simp only [conclude_bind, readInt_bind, ofExcept_bind, deliver_bind]
  rfl

theorem conclude_jump (i : Instr) (relative : Bool) (target : Operand) (condition : Option Operand)
    (m : Machine σ) :
    conclude m.state.pc i (perform m.state.pc i (.jump relative target condition)) m =
      deliver m i (transition m.hosts i (.jump relative target condition) m.state m.world) := by
  cases condition with
  | none => exact conclude_taken i relative target m
  | some c =>
    simp only [perform, transition, isTaken, pure_bind, deliver_bind, conclude_bind, ask_bind]
    cases m.state.read c with
    | error e => rfl
    | ok v =>
      simp only [proceed]
      cases v.isZero with
      | true => exact conclude_taken i relative target m
      | false => rfl

theorem conclude_enter (i : Instr) (target : Operand) (argc : Nat) (m : Machine σ) :
    conclude m.state.pc i (do
      let t ← readInt i target
      let t ← Action.ofExcept (jumpTarget t.toInt)
      change (enter m.state.pc argc)
      return .jump t) m =
    deliver m i (do
      let t ← integer i m.state target
      let t ← jumpTarget t.toInt
      .ok (advance m.state.pc (.jump t) (enter m.state.pc argc m.state), m.world)) := by
  simp only [conclude_bind, readInt_bind, ofExcept_bind, deliver_bind]
  rfl

theorem conclude_call (i : Instr) (target argc : Operand) (m : Machine σ) :
    conclude m.state.pc i (perform m.state.pc i (.call target argc)) m =
      deliver m i (transition m.hosts i (.call target argc) m.state m.world) := by
  simp only [perform, transition, conclude_bind, readInt_bind, deliver_bind, ofExcept_bind, ask_bind]
  congr 1
  funext n
  congr 1
  funext argc
  simp only [proceed]
  by_cases hs : m.state.stack.size < argc
  · simp only [if_pos hs]
    rfl
  · simp only [if_neg hs]
    -- only the host has functions by name; the other targets are addresses
    cases target with
    | host name => cases hf : m.hosts.get? name with
      | none =>
        simp only [conclude_bind, get_bind, hf]
        rfl
      | some f =>
        simp only [conclude_bind, get_bind, hf]
        rfl
    | imm v => exact conclude_enter i (.imm v) argc m
    | reg r => exact conclude_enter i (.reg r) argc m
    | ptr p => exact conclude_enter i (.ptr p) argc m
    | var key index => exact conclude_enter i (.var key index) argc m
    | label name => exact conclude_enter i (.label name) argc m

/-- Performing an operation and setting the program counter is its transition. -/
theorem conclude_perform (i : Instr) (op : Operation) (m : Machine σ) :
    conclude m.state.pc i (perform m.state.pc i op) m =
      deliver m i (transition m.hosts i op m.state m.world) := by
  cases op with
  | compute op dest src =>
    simp only [perform, conclude_bind, ask_bind, ofExcept_bind, attempt_bind, transition,
      deliver_bind]
    rfl
  | change op dest =>
    simp only [perform, conclude_bind, ask_bind, ofExcept_bind, attempt_bind, transition,
      deliver_bind]
    rfl
  | move dest src =>
    simp only [perform, conclude_bind, ask_bind, attempt_bind, transition, deliver_bind]
    rfl
  | load dest v => rfl
  | push src =>
    simp only [perform, conclude_bind, ask_bind, transition, deliver_bind]
    rfl
  | pop dest => exact conclude_pop i dest m
  | jump relative target condition => exact conclude_jump i relative target condition m
  | call target argc => exact conclude_call i target argc m
  | ret =>
    simp only [perform, conclude_bind, ask_bind, transition, proceed]
    cases hf : m.state.frames with
    | nil => rfl
    | cons frame rest =>
      by_cases hb : m.state.bp < frame.argc
      · simp only [if_pos hb]; rfl
      · simp only [if_neg hb]; rfl
  | nop => rfl

/-- **Execution is the transition of the decoded instruction**; a fault of any kind leaves the
machine as it was. -/
theorem executeNext_eq (m : Machine σ) :
    executeNext m =
      match m.image.code[m.state.pc]? with
      | none => .error (.halted m.state.pc) m
      | some i => deliver m i (i.decode >>= fun op => transition m.hosts i op m.state m.world) := by
  show (match m.image.code[m.state.pc]? with
    | none => throw (.halted m.state.pc)
    | some i => do
      let operation ← Action.ofExcept i.decode
      conclude m.state.pc i (perform m.state.pc i operation) : Action σ Unit) m = _
  cases m.image.code[m.state.pc]? with
  | none => rfl
  | some i =>
    simp only [ofExcept_bind, deliver_bind]
    congr 1
    funext op
    exact conclude_perform i op m

/-- A step succeeds exactly if its instruction decodes and has a transition. -/
theorem executeNext_eq_ok_iff {m m' : Machine σ} :
    executeNext m = .ok () m' ↔
      ∃ i op s w, m.image.code[m.state.pc]? = some i ∧ i.decode = .ok op ∧
        transition m.hosts i op m.state m.world = .ok (s, w) ∧ m' = m.moved m.state.pc i s w := by
  rw [executeNext_eq]
  constructor
  · intro h
    cases hi : m.image.code[m.state.pc]? with
    | none => simp [hi] at h
    | some i =>
      cases hd : i.decode with
      | error e => simp [hi, hd, deliver, bind, Except.bind] at h
      | ok op =>
        cases ht : transition m.hosts i op m.state m.world with
        | error e => simp [hi, hd, ht, deliver, bind, Except.bind] at h
        | ok r =>
          refine ⟨i, op, r.1, r.2, rfl, hd, ht, ?_⟩
          simpa [hi, hd, ht, deliver, bind, Except.bind] using h.symm
  · rintro ⟨i, op, s, w, hi, hd, ht, rfl⟩
    simp [hi, hd, ht, deliver, bind, Except.bind]

/-- Why a step fails; it leaves the machine as it was. -/
theorem executeNext_eq_error_iff {m m' : Machine σ} {e : Fault} :
    executeNext m = .error e m' ↔
      m' = m ∧ ((m.image.code[m.state.pc]? = none ∧ e = .halted m.state.pc) ∨
        ∃ i, m.image.code[m.state.pc]? = some i ∧ (i.decode = .error e ∨
          ∃ op, i.decode = .ok op ∧ transition m.hosts i op m.state m.world = .error e)) := by
  rw [executeNext_eq]
  cases hi : m.image.code[m.state.pc]? with
  | none => simp [eq_comm, and_comm]
  | some i =>
    cases hd : i.decode with
    | error f => simp [hd, deliver, bind, Except.bind, eq_comm, and_comm]
    | ok op =>
      cases ht : transition m.hosts i op m.state m.world with
      | error f => simp [hd, ht, deliver, bind, Except.bind, eq_comm, and_comm]
      | ok r => simp [hd, ht, deliver, bind, Except.bind]

/-! ## Runs -/

/-- The machine gets from one state to another in so many steps. -/
inductive Steps : Nat → Machine σ → Machine σ → Prop
  | refl (m : Machine σ) : Steps 0 m m
  | step {n : Nat} {m m' m'' : Machine σ} :
    executeNext m = .ok () m' → Steps n m' m'' → Steps (n + 1) m m''

namespace Steps

variable {k n : Nat} {m m' m'' : Machine σ}

theorem one (h : executeNext m = .ok () m') : Steps 1 m m' := .step h (.refl m')

theorem trans (h : Steps k m m') (h' : Steps n m' m'') : Steps (k + n) m m'' := by
  induction h with
  | refl => simpa using h'
  | step hs _ ih =>
    rw [Nat.add_right_comm]
    exact .step hs (ih h')

/-- What the first machine has and every step keeps, the last machine has. -/
theorem invariant {P : Machine σ → Prop} (h : Steps n m m') (h₀ : P m)
    (hs : ∀ {a b : Machine σ}, P a → executeNext a = .ok () b → P b) : P m' := by
  induction h with
  | refl => exact h₀
  | step he _ ih => exact ih (hs h₀ he)

/-- A shorter run from the same machine is part of a longer one. -/
theorem split (h : Steps (k + n) m m'') : ∃ m', Steps k m m' ∧ Steps n m' m'' := by
  induction k generalizing m with
  | zero => exact ⟨m, .refl m, by simpa using h⟩
  | succ k ih =>
    rw [Nat.add_right_comm] at h
    cases h with
    | step he hr =>
      obtain ⟨a, h₁, h₂⟩ := ih hr
      exact ⟨a, .step he h₁, h₂⟩

/-- Runs of the same length from the same machine end alike. -/
theorem unique (h : Steps n m m') (h' : Steps n m m'') : m' = m'' := by
  induction h with
  | refl => cases h'; rfl
  | step he _ ih =>
    cases h' with
    | step he' hr =>
      rw [he] at he'
      cases he'
      exact ih hr

end Steps

/-- A bounded run that stops at a fault has taken steps up to the instruction that failed. -/
theorem exists_steps_of_runWhile {goOn : Machine σ → Bool} {fuel : Nat} {m m' : Machine σ}
    {e : Fault} (h : runWhile goOn fuel m = (m', some e)) :
    ∃ n m₁, Steps n m m₁ ∧ executeNext m₁ = .error e m' := by
  induction fuel generalizing m with
  | zero => cases h
  | succ fuel ih =>
    simp only [runWhile] at h
    split at h
    · split at h
      next m₁ hm =>
        obtain ⟨n, m₂, hsteps, hfault⟩ := ih h
        exact ⟨n + 1, m₂, .step hm hsteps, hfault⟩
      next e' m₁ hm =>
        cases h
        exact ⟨0, m, .refl m, hm⟩
    · cases h

/-! ## Failed steps -/

/-- A machine that asks its host for a number and pops it into the slot that it has just left. The
host counts its calls, and a recorder is attached. -/
def lostSlot : Machine (Nat × List TraceEvent) where
  image := {
    code := #[.call (.host "tick") 0, .push (.reg .rv), .pop (.ptr ⟨.frame, 0, none⟩)]
    globals := #[]
    symbols := .empty }
  state := .initial #[]
  hosts := .ofList [("tick", fun _ w => (.int (Int64.ofNat (w.1 + 1)), (w.1 + 1, w.2)))]
  hooks := [recorder fun event w => (w.1, w.2 ++ [event])]
  world := (0, [])

end Stepwise.Machine
