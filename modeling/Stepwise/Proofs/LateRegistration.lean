import Mathlib
import Stepwise.Proofs.Success
import Stepwise.Proofs.Transition

/-!
# Host functions that come late

A program may start before the host has registered its functions. A call of a missing function
fails, changes nothing and names the function; the host registers it and tries again. Such a run
shows the same as the run in which all functions are there from the start: the same states one after
the other, the same calls of host functions with the same results, and the same world, with all that
hooks such as a recorder have written into it. It ends with the same fault.

The reason is the order of checks in a call. The number of arguments and the height of the stack are
checked before the function is looked up, and nothing can go wrong after that.

## Main definitions

* `Machine.Plays`: runs, with what each step shows
* `Machine.PlaysLate`: runs in which missing functions are registered on demand
* `Machine.Ahead`: a machine that has registered more host functions than another one

## Main results

* `late_registration`: both kinds of runs show the same
-/

namespace Stepwise

/-- The name of the host function that an instruction calls. -/
def Instr.host? (i : Instr) : Option String :=
  match i.op, i.dest with
  | .call, some (.host name) => some name
  | _, _ => none

/-- The names of the host functions that a program calls. -/
def Image.externals (image : Image) : List String := image.code.toList.filterMap Instr.host?

/-- A call of a host function, with its result. -/
structure HostCall where
  name : String
  args : List Value
  result : Value
  deriving DecidableEq, Repr

/-- What a step shows: the host function that it has called, and the state and the world after
it. -/
structure Moment (σ : Type) where
  call : Option HostCall
  state : State
  world : σ

namespace Machine

variable {σ : Type}

/-- The call of a host function that the next instruction makes. -/
def hostCall? (m : Machine σ) : Option HostCall := do
  let i ← m.image.code[m.state.pc]?
  let name ← i.host?
  let argc ← i.src
  let n ← (integer i m.state argc).toOption
  let f ← m.hosts.get? name
  let args := topArguments n.toInt.toNat m.state
  return ⟨name, args, (f args m.world).1⟩

/-- A run, with what each step shows. -/
inductive Plays : List (Moment σ) → Machine σ → Machine σ → Prop
  | refl (m : Machine σ) : Plays [] m m
  | step {trace : List (Moment σ)} {m m' m'' : Machine σ} : executeNext m = .ok () m' →
    Plays trace m' m'' → Plays (⟨m.hostCall?, m'.state, m'.world⟩ :: trace) m m''

/-- A run in which the host registers a function when a call of it has failed, and tries again. -/
inductive PlaysLate (assign : String → HostFunction σ) :
    List (Moment σ) → Machine σ → Machine σ → Prop
  | refl (m : Machine σ) : PlaysLate assign [] m m
  | step {trace : List (Moment σ)} {m m' m'' : Machine σ} : executeNext m = .ok () m' →
    PlaysLate assign trace m' m'' →
    PlaysLate assign (⟨m.hostCall?, m'.state, m'.world⟩ :: trace) m m''
  | register {trace : List (Moment σ)} {m m' m'' : Machine σ} {name : String} :
    executeNext m = .error (.unregistered name) m' →
    PlaysLate assign trace (m'.register name (assign name)) m'' → PlaysLate assign trace m m''

/-- The machine with functions for all these names. -/
def registerAll (assign : String → HostFunction σ) (m : Machine σ) (names : List String) :
    Machine σ :=
  names.foldl (fun m name => m.register name (assign name)) m

/-- Two machines are the same, but that the second one has functions for all names that it calls and
the first one some of them. -/
structure Ahead (assign : String → HostFunction σ) (m m' : Machine σ) : Prop where
  image : m'.image = m.image
  state : m'.state = m.state
  hooks : m'.hooks = m.hooks
  world : m'.world = m.world
  known : ∀ {name}, m.hosts.get? name = none ∨ m.hosts.get? name = some (assign name)
  all : ∀ {name}, name ∈ m.image.externals → m'.hosts.get? name = some (assign name)

end Machine

/-! ## Computations that miss no function -/

/-- A computation does not end for want of a host function. -/
def Provided {α : Type} (r : Except Fault α) : Prop := ∀ name, r ≠ .error (.unregistered name)

namespace Provided

variable {α β : Type}

theorem ok (a : α) : Provided (.ok a) := by
  rintro name ⟨⟩

theorem bind {x : Except Fault α} {f : α → Except Fault β} (hx : Provided x)
    (hf : ∀ a, Provided (f a)) : Provided (x >>= f) := by
  intro name h
  rcases bind_eq_error.mp h with h | ⟨a, -, h⟩
  · exact hx name h
  · exact hf a name h

theorem arithmetic (r : Except ArithmeticError α) : Provided (liftArithmetic r) := by
  intro name h
  cases r <;> cases h

theorem conversion (r : Except ConversionError α) : Provided (liftConversion r) := by
  intro name h
  cases r <;> cases h

theorem jumpTarget (t : Int) : Provided (Machine.jumpTarget t) := by
  intro name h
  unfold Machine.jumpTarget at h
  split at h <;> cases h

theorem argumentCount (i : Instr) (n : Int64) : Provided (Machine.argumentCount i n) := by
  intro name h
  unfold Machine.argumentCount at h
  split at h <;> cases h

variable (s : State)

theorem locate (p : Ptr) : Provided (s.locate p) := by
  refine bind ?_ fun index => ?_
  · intro name h
    unfold State.indexValue at h
    split at h
    · cases h
    · split at h <;> cases h
  · intro name h
    simp only at h
    split at h
    · split at h <;> cases h
    · cases h

theorem read (o : Operand) : Provided (s.read o) := by
  cases o with
  | ptr p =>
    intro name h
    cases hl : s.locate p with
    | ok r => simp [State.read, hl, Except.map] at h
    | error e =>
      simp only [State.read, hl, Except.map] at h
      cases h
      exact locate s p name hl
  | _ => rintro name ⟨⟩

theorem write (o : Operand) (v : Value) : Provided (s.write o v) := by
  cases o with
  | ptr p => exact bind (locate s p) fun _ => bind (conversion _) fun _ => ok _
  | _ => rintro name ⟨⟩

theorem integer (i : Instr) (o : Operand) : Provided (Machine.integer i s o) := by
  intro name h
  unfold Machine.integer at h
  split at h
  next e hread =>
    cases h
    exact read s o name hread
  · split at h <;> cases h

theorem isTaken (condition : Option Operand) : Provided (Machine.isTaken s condition) := by
  intro name h
  unfold Machine.isTaken at h
  split at h
  · cases h
  · split at h
    · cases h
    next e hread =>
      cases h
      exact read s _ name hread

end Provided

namespace Machine

variable {σ : Type}

/-! ## One instruction -/

section Transition

variable {hosts hosts' : Table (HostFunction σ)} {i : Instr} {op : Operation} {s : State} {w : σ}

/-- A call of a host function is written as one. -/
theorem host?_of_decode {name : String} {argc : Operand}
    (h : i.decode = .ok (.call (.host name) argc)) : i.host? = some name ∧ i.src = some argc := by
  unfold Instr.decode at h
  simp only at h
  split at h <;> cases h
  next hop hdest hsrc => simp only [Instr.host?, hop, hdest, hsrc, and_self]

theorem call_of_host? {name : String} (hname : i.host? = some name) (hd : i.decode = .ok op) :
    ∃ argc, op = .call (.host name) argc := by
  unfold Instr.host? at hname
  split at hname <;> cases hname
  next hop hdest =>
    cases hsrc : i.src with
    | none =>
      simp only [Instr.decode, hop, hdest, hsrc] at hd
      cases hd
    | some argc =>
      simp only [Instr.decode, hop, hdest, hsrc] at hd
      cases hd
      exact ⟨argc, rfl⟩

/-- Host functions matter to the calls of their names only. -/
theorem transition_congr (hd : i.decode = .ok op)
    (h : ∀ name, i.host? = some name → hosts.get? name = hosts'.get? name) :
    transition hosts i op s w = transition hosts' i op s w := by
  cases op with
  | call target argc => cases target with
    | host name => simp only [transition, h name (host?_of_decode hd).1]
    | _ => rfl
  | _ => rfl

/-- **A call checks its arguments before it looks for the function**, and after that it cannot
fail. -/
theorem transition_host (i : Instr) (name : String) (argc : Operand) (s : State) (w : σ) :
    (∃ e, (∀ name, e ≠ .unregistered name) ∧ ∀ hosts : Table (HostFunction σ),
      transition hosts i (.call (.host name) argc) s w = .error e) ∨
    ∃ count, ∀ hosts : Table (HostFunction σ), transition hosts i (.call (.host name) argc) s w =
      match hosts.get? name with
      | none => .error (.unregistered name)
      | some f => .ok (hostTransition f count s w) := by
  cases hn : integer i s argc with
  | error e =>
    refine .inl ⟨e, ?_, fun _ => bind_eq_error.mpr (.inl hn)⟩
    rintro name rfl
    exact Provided.integer s i argc name hn
  | ok n =>
    by_cases hpos : 0 ≤ n.toInt
    · by_cases hsize : s.stack.size < n.toInt.toNat
      · refine .inl ⟨.stackUnderflow, by simp, fun _ => ?_⟩
        simp only [transition, hn, argumentCount, if_pos hpos, bind, Except.bind, if_pos hsize]
      · refine .inr ⟨n.toInt.toNat, fun _ => ?_⟩
        have hcount : argumentCount i n = .ok n.toInt.toNat := if_pos hpos
        show (integer i s argc >>= _) = _
        rw [hn]
        show (argumentCount i n >>= _) = _
        rw [hcount]
        exact if_neg hsize
    · refine .inl ⟨.malformed i.text .negativeCount, by simp, fun _ => ?_⟩
      simp only [transition, hn, argumentCount, if_neg hpos, bind, Except.bind]

/-- No instruction misses a function, if the one that it calls is there. -/
theorem provided_transition (h : ∀ name argc, op = .call (.host name) argc →
    hosts.get? name ≠ none) : Provided (transition hosts i op s w) := by
  cases op with
  | compute op dest src =>
    exact .bind (.read s dest) fun _ => .bind (.read s src) fun _ => .bind (.arithmetic _) fun _ =>
      .bind (.write s dest _) fun _ => .ok _
  | change op dest =>
    exact .bind (.read s dest) fun _ => .bind (.arithmetic _) fun _ =>
      .bind (.write s dest _) fun _ => .ok _
  | move dest src => exact .bind (.read s src) fun _ => .bind (.write s dest _) fun _ => .ok _
  | load dest v => exact .ok _
  | push src => exact .bind (.read s src) fun _ => .ok _
  | pop dest =>
    simp only [transition]
    split
    · rintro name ⟨⟩
    · exact .bind (.write (dropOne s) dest _) fun _ => .ok _
  | jump relative target condition =>
    refine .bind (.isTaken s condition) fun taken => ?_
    split
    · exact .bind (.integer s i target) fun _ => .bind (.jumpTarget _) fun _ => .ok _
    · exact .ok _
  | call target argc => cases target with
    | host name =>
      rcases transition_host i name argc s w with ⟨e, he, hfails⟩ | ⟨count, hcall⟩
      · rw [hfails]
        rintro name' ⟨⟩
        exact he name' rfl
      · obtain ⟨f, hf⟩ := Option.ne_none_iff_exists'.mp (h name argc rfl)
        rw [hcall, hf]
        exact .ok _
    | _ =>
      refine .bind (.integer s i argc) fun _ => .bind (.argumentCount i _) fun _ => ?_
      split
      · rintro name ⟨⟩
      · exact .bind (.integer s i _) fun _ => .bind (.jumpTarget _) fun _ => .ok _
  | ret =>
    simp only [transition]
    split
    · rintro name ⟨⟩
    · split
      · rintro name ⟨⟩
      · exact .ok _
  | nop => exact .ok _

/-- What an instruction does in a state, if it is well formed. -/
def outcome (hosts : Table (HostFunction σ)) (i : Instr) (s : State) (w : σ) :
    Except Fault (State × σ) :=
  i.decode >>= fun op => transition hosts i op s w

theorem executeNext_of_fetch {m : Machine σ} (hi : m.image.code[m.state.pc]? = some i) :
    executeNext m = m.deliver i (outcome m.hosts i m.state m.world) := by
  rw [executeNext_eq, hi]
  rfl

theorem outcome_congr (h : ∀ name, i.host? = some name → hosts.get? name = hosts'.get? name) :
    outcome hosts i s w = outcome hosts' i s w := by
  unfold outcome
  cases hd : i.decode with
  | error e => rfl
  | ok op => exact transition_congr hd h

theorem provided_decode (i : Instr) : Provided i.decode := by
  intro name h
  unfold Instr.decode at h
  simp only at h
  split at h <;> cases h

theorem provided_outcome (h : ∀ name, i.host? = some name → hosts.get? name ≠ none) :
    Provided (outcome hosts i s w) := by
  intro name hmissing
  rcases bind_eq_error.mp hmissing with hd | ⟨op, hd, ht⟩
  · exact provided_decode i name hd
  · refine provided_transition (fun l argc hop => ?_) name ht
    subst hop
    exact h l (host?_of_decode hd).1

/-- Without the function that it calls, an instruction fails for want of it and succeeds with it,
unless it fails with every host. -/
theorem outcome_missing {name : String} (hname : i.host? = some name)
    (hmissing : hosts.get? name = none) :
    (outcome hosts i s w = .error (.unregistered name) ∧
      ∀ hosts' : Table (HostFunction σ), hosts'.get? name ≠ none →
        ∃ r, outcome hosts' i s w = .ok r) ∨
    ∃ e, (∀ name, e ≠ .unregistered name) ∧
      ∀ hosts : Table (HostFunction σ), outcome hosts i s w = .error e := by
  unfold outcome
  cases hd : i.decode with
  | error e =>
    refine .inr ⟨e, ?_, fun _ => rfl⟩
    rintro l rfl
    exact provided_decode i l hd
  | ok op =>
    obtain ⟨argc, rfl⟩ := call_of_host? hname hd
    rcases transition_host i name argc s w with ⟨e, he, hfails⟩ | ⟨count, hcall⟩
    · exact .inr ⟨e, he, hfails⟩
    · refine .inl ⟨?_, fun hosts' hthere => ?_⟩
      · show transition hosts i (.call (.host name) argc) s w = _
        rw [hcall, hmissing]
      · obtain ⟨f, hf⟩ := Option.ne_none_iff_exists'.mp hthere
        show ∃ r, transition hosts' i (.call (.host name) argc) s w = .ok r
        rw [hcall, hf]
        exact ⟨_, rfl⟩

end Transition

/-! ## One step of both machines -/

section Step

variable {assign : String → HostFunction σ} {m m' n n' : Machine σ} {e : Fault}

namespace Ahead

/-- The function that is missing is registered. -/
theorem register (h : Ahead assign m n) (name : String) :
    Ahead assign (m.register name (assign name)) n where
  image := h.image
  state := h.state
  hooks := h.hooks
  world := h.world
  known := by
    intro k
    by_cases hk : k = name
    · subst hk
      exact .inr (Table.get?_insert_self _ _ _)
    · rw [Machine.register, Table.get?_insert_of_ne _ hk]
      exact h.known
  all := h.all

/-- Both machines after a step of the same outcome. -/
theorem moved (h : Ahead assign m n) (pc : Nat) (i : Instr) (s : State) (w : σ) :
    Ahead assign (m.moved pc i s w) (n.moved pc i s w) where
  image := h.image
  state := rfl
  hooks := h.hooks
  world := by simp only [Machine.moved, h.hooks, h.image]
  known := h.known
  all := h.all

/-- The function that the next instruction calls is there, if it calls one. -/
def Ready (assign : String → HostFunction σ) (m : Machine σ) : Prop :=
  ∀ i name, m.image.code[m.state.pc]? = some i → i.host? = some name →
    m.hosts.get? name = some (assign name)

theorem ready (h : Ahead assign m n) : Ready assign n := by
  intro i name hi hname
  refine h.all (List.mem_filterMap.mpr ⟨i, ?_, hname⟩)
  rw [h.image] at hi
  exact Array.mem_toList_iff.mpr (Array.mem_of_getElem? hi)

theorem hostCall?_eq (h : Ahead assign m n) (hready : Ready assign m) :
    m.hostCall? = n.hostCall? := by
  unfold hostCall?
  rw [h.image, h.state, h.world]
  cases hi : m.image.code[m.state.pc]? with
  | none => rfl
  | some i =>
    cases hname : i.host? with
    | none => simp [hname]
    | some name =>
      have hthere : n.hosts.get? name = some (assign name) := by
        refine h.ready i name ?_ hname
        rw [h.image, h.state, hi]
      simp [hname, hready i name hi hname, hthere]

/-- **Machines that have the function that is called do the same**: both take a step, or both fail,
and not for want of a function. -/
theorem step_of_ready (h : Ahead assign m n) (hready : Ready assign m) :
    (∃ m' n', executeNext m = .ok () m' ∧ executeNext n = .ok () n' ∧ Ahead assign m' n') ∨
    ∃ e, (∀ name, e ≠ .unregistered name) ∧ executeNext m = .error e m ∧
      executeNext n = .error e n := by
  cases hi : m.image.code[m.state.pc]? with
  | none =>
    refine .inr ⟨.halted m.state.pc, by simp, ?_, ?_⟩
    · rw [executeNext_eq, hi]
    · rw [executeNext_eq, h.image, h.state, hi]
  | some i =>
    have hi' : n.image.code[n.state.pc]? = some i := by rw [h.image, h.state, hi]
    have hsame : outcome n.hosts i n.state n.world = outcome m.hosts i m.state m.world := by
      rw [h.state, h.world]
      exact outcome_congr fun name hname =>
        (h.ready i name hi' hname).trans (hready i name hi hname).symm
    rw [executeNext_of_fetch hi, executeNext_of_fetch hi', hsame]
    cases hr : outcome m.hosts i m.state m.world with
    | error e =>
      refine .inr ⟨e, ?_, rfl, rfl⟩
      rintro name rfl
      exact provided_outcome (fun l hl => by simp [hready i l hi hl]) name hr
    | ok r =>
      refine .inl ⟨_, _, rfl, rfl, ?_⟩
      rw [h.state]
      exact h.moved _ i r.1 r.2

/-- **A machine that misses the function that is called fails for want of it**, unless the machine
with the function fails as well. -/
theorem step_of_missing (h : Ahead assign m n) (hready : ¬ Ready assign m) :
    (∃ name n', executeNext m = .error (.unregistered name) m ∧ executeNext n = .ok () n' ∧
      Ready assign (m.register name (assign name))) ∨
    ∃ e, (∀ name, e ≠ .unregistered name) ∧ executeNext m = .error e m ∧
      executeNext n = .error e n := by
  unfold Ready at hready
  push Not at hready
  obtain ⟨i, name, hi, hname, hother⟩ := hready
  have hi' : n.image.code[n.state.pc]? = some i := by rw [h.image, h.state, hi]
  have hthere : n.hosts.get? name ≠ none := by simp [h.ready i name hi' hname]
  rw [executeNext_of_fetch hi, executeNext_of_fetch hi', h.state, h.world]
  rcases outcome_missing hname (h.known.resolve_right hother) with ⟨hmissing, hwith⟩ | ⟨e, he, hfails⟩
  · obtain ⟨r, hr⟩ := hwith n.hosts hthere
    refine .inl ⟨name, _, by rw [hmissing]; rfl, by rw [hr]; rfl, fun i' name' hi₁ hname₁ => ?_⟩
    cases hi.symm.trans hi₁
    cases hname.symm.trans hname₁
    exact Table.get?_insert_self _ _ _
  · exact .inr ⟨e, he, by rw [hfails]; rfl, by rw [hfails]; rfl⟩

/-- **Faults other than a missing function are the same.** -/
theorem fault_iff (h : Ahead assign m n) :
    (∀ name, e ≠ .unregistered name) ∧ executeNext m = .error e m ↔ executeNext n = .error e n := by
  by_cases hready : Ready assign m
  · rcases h.step_of_ready hready with ⟨m', n', hm, hn, -⟩ | ⟨f, hf, hm, hn⟩
    · simp [hm, hn]
    · rw [hm, hn]
      constructor
      · rintro ⟨-, ⟨⟩⟩
        rfl
      · rintro ⟨⟩
        exact ⟨hf, rfl⟩
  · rcases h.step_of_missing hready with ⟨name, n', hm, hn, -⟩ | ⟨f, hf, hm, hn⟩
    · rw [hm, hn]
      constructor
      · rintro ⟨he, ⟨⟩⟩
        exact absurd rfl (he name)
      · rintro ⟨⟩
    · rw [hm, hn]
      constructor
      · rintro ⟨-, ⟨⟩⟩
        rfl
      · rintro ⟨⟩
        exact ⟨hf, rfl⟩

end Ahead

end Step

/-! ## Runs -/

section Runs

variable {assign : String → HostFunction σ} {m m' n n' : Machine σ} {trace : List (Moment σ)}

/-- A run without its functions shows what the run with all of them shows. -/
theorem PlaysLate.plays (hrun : PlaysLate assign trace m m') (h : Ahead assign m n) :
    ∃ n', Plays trace n n' ∧ Ahead assign m' n' := by
  induction hrun generalizing n with
  | refl m => exact ⟨n, .refl n, h⟩
  | @step trace m m₁ m' hstep _ ih =>
    by_cases hready : Ahead.Ready assign m
    · rcases h.step_of_ready hready with ⟨m₂, n₁, hm, hn, h₁⟩ | ⟨e, -, hm, -⟩
      · cases hstep.symm.trans hm
        obtain ⟨n', hplays, h'⟩ := ih h₁
        rw [h.hostCall?_eq hready, ← h₁.state, ← h₁.world]
        exact ⟨n', .step hn hplays, h'⟩
      · cases hstep.symm.trans hm
    · rcases h.step_of_missing hready with ⟨name, n', hm, -⟩ | ⟨e, -, hm, -⟩
      · cases hstep.symm.trans hm
      · cases hstep.symm.trans hm
  | @register trace m m₁ m' name hmissing _ ih =>
    obtain ⟨rfl, -⟩ := executeNext_eq_error_iff.mp hmissing
    exact ih (h.register name)

/-- A run with all functions shows what a run shows in which they are registered on demand. -/
theorem Plays.playsLate (hrun : Plays trace n n') (h : Ahead assign m n) :
    ∃ m', PlaysLate assign trace m m' ∧ Ahead assign m' n' := by
  induction hrun generalizing m with
  | refl n => exact ⟨m, .refl m, h⟩
  | @step trace n n₁ n' hstep _ ih =>
    -- once the function is there, both take the step
    have hboth {m : Machine σ} (h : Ahead assign m n) (hready : Ahead.Ready assign m) :
        ∃ m', PlaysLate assign (⟨n.hostCall?, n₁.state, n₁.world⟩ :: trace) m m' ∧
          Ahead assign m' n' := by
      rcases h.step_of_ready hready with ⟨m₁, n₂, hm, hn, h₁⟩ | ⟨e, -, -, hn⟩
      · cases hstep.symm.trans hn
        obtain ⟨m', hplays, h'⟩ := ih h₁
        rw [← h.hostCall?_eq hready, h₁.state, h₁.world]
        exact ⟨m', .step hm hplays, h'⟩
      · cases hstep.symm.trans hn
    by_cases hready : Ahead.Ready assign m
    · exact hboth h hready
    · rcases h.step_of_missing hready with ⟨name, n₂, hm, -, hnow⟩ | ⟨e, -, -, hn⟩
      · obtain ⟨m', hplays, h'⟩ := hboth (h.register name) hnow
        exact ⟨m', .register hm hplays, h'⟩
      · cases hstep.symm.trans hn

end Runs

/-! ## All functions at once -/

variable (assign : String → HostFunction σ)

theorem registerAll_eq (m : Machine σ) (names : List String) :
    m.registerAll assign names = { m with hosts := (m.registerAll assign names).hosts } := by
  induction names generalizing m with
  | nil => rfl
  | cons name rest ih => exact ih (m.register name (assign name))

theorem get?_registerAll {m : Machine σ} {names : List String} {name : String}
    (h : name ∈ names ∨ m.hosts.get? name = some (assign name)) :
    (m.registerAll assign names).hosts.get? name = some (assign name) := by
  induction names generalizing m with
  | nil => exact h.resolve_left List.not_mem_nil
  | cons first rest ih =>
    refine ih ?_
    by_cases hfirst : name = first
    · subst hfirst
      exact .inr (Table.get?_insert_self _ _ _)
    · show name ∈ rest ∨ (m.hosts.insert first (assign first)).get? name = _
      rw [Table.get?_insert_of_ne _ hfirst]
      exact h.imp_left fun hmem => (List.mem_cons.mp hmem).resolve_left hfirst

/-- A machine without host functions, and the same machine with all that its program calls. -/
theorem ahead_registerAll {m : Machine σ} (h : m.hosts = .empty) :
    Ahead assign m (m.registerAll assign m.image.externals) where
  image := by rw [registerAll_eq]
  state := by rw [registerAll_eq]
  hooks := by rw [registerAll_eq]
  world := by rw [registerAll_eq]
  known := by
    intro name
    rw [h]
    exact .inl rfl
  all hname := get?_registerAll assign (.inl hname)

end Machine

/-- Code that asks its host for a number twice and shows the second one. -/
def askTwice : Image where
  code := #[.call (.host "tick") 0, .call (.host "tick") 0, .push (.reg .rv), .call (.host "show") 1]
  globals := #[]
  symbols := .empty

/-- A host that counts the calls of `tick`. -/
def counting (name : String) : HostFunction (Nat × List TraceEvent) := fun args w =>
  if name = "tick" then (.int (Int64.ofNat (w.1 + 1)), (w.1 + 1, w.2))
  else (args.headD (.int 0), w)

/-- The program without host functions, with a recorder. -/
def askingTwice : Machine (Nat × List TraceEvent) :=
  { Machine.load askTwice (0, []) with
    hooks := [recorder fun event w => (w.1, w.2 ++ [event])] }

end Stepwise
