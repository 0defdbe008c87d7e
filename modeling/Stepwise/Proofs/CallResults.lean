import Mathlib
import Stepwise.Proofs.TypeSoundness

/-!
# The values of calls

A call that is used as a value is followed by a push of `RV`. One register serves all calls, and a
function may end without a return statement, so what the push finds there depends on the whole run.
Still, the push is reached in one way only: the call in front of it has just ended. If it has not run
off the end of the body, then a return statement of the function was its last statement, and the push
finds the value that this statement took off the stack.

A function with a result that does run off the end of its body leaves in `RV` what some earlier call
has left there, of whatever type.

## Main definitions

* `Machine.Made`: the step of a run that made a call in progress
* `Machine.Answered`: a call has just ended with a return statement

## Main results

* `Machine.made_of_steps`: every call in progress was made by a step of the run
* `Compilation.step_before_known`: how a run comes to code that knows what is in `RV`
* `call_value_returned`: the value of a call is the one that a return statement of the call gave it
-/

namespace Stepwise

namespace Machine

variable {σ : Type} {m₀ m m' m'' : Machine σ} {n depth : Nat} {frame : CallFrame}
  {above callers : List CallFrame}

/-! ## The step that made a call -/

theorem Deeper.concat (h : Deeper depth m m') (hstep : m'.executeNext = .ok () m'')
    (hlt : depth < m''.state.depth) : Deeper depth m m'' := by
  induction h with
  | refl hm => exact .step hm hstep (.refl hlt)
  | step hm hfirst _ ih => exact .step hm hfirst (ih hstep)

/-- A step of the run from `m₀` made the call with this frame while those below it were in progress,
and the call has been in progress since. -/
def Made (m₀ m : Machine σ) (frame : CallFrame) (callers : List CallFrame) : Prop :=
  ∃ (k : Nat) (a b : Machine σ), Steps k m₀ a ∧ a.executeNext = .ok () b ∧
    frame.returnPc = a.state.pc + 1 ∧ a.state.frames = callers ∧
    b.state.frames = frame :: callers ∧ Deeper callers.length b m

theorem Made.step (h : Made m₀ m frame callers) (hstep : m.executeNext = .ok () m')
    (hframes : m'.state.frames = above ++ frame :: callers) : Made m₀ m' frame callers := by
  obtain ⟨k, a, b, hrun, hcall, hpc, hbelow, hentered, hdeep⟩ := h
  refine ⟨k, a, b, hrun, hcall, hpc, hbelow, hentered, hdeep.concat hstep ?_⟩
  rw [State.depth, hframes, List.length_append, List.length_cons]
  omega

/-- **Every call in progress was made by a step of the run.** -/
theorem made_of_steps (hstart : m₀.state.frames = []) (hrun : Steps n m₀ m)
    (hframes : m.state.frames = above ++ frame :: callers) : Made m₀ m frame callers := by
  induction n generalizing m above with
  | zero =>
    cases hrun
    rw [hstart] at hframes
    simp at hframes
  | succ n ih =>
    obtain ⟨a, hbefore, hlast⟩ := hrun.split
    cases hlast with
    | step hstep hend =>
      cases hend
      obtain ⟨i, op, s, w, -, -, ht, rfl⟩ := executeNext_eq_ok_iff.mp hstep
      cases turn_of_transition ht with
      | stay hsame _ _ =>
        rw [show (a.moved a.state.pc i s w).state.frames = a.state.frames from hsame] at hframes
        exact (ih hbefore hframes).step hstep (hsame.trans hframes)
      | enter _ _ _ _ _ _ _ hcons _ _ =>
        have hcons' := hcons.symm.trans hframes
        cases above with
        | nil =>
          -- this is the call that the step has made
          obtain ⟨rfl, rfl⟩ := List.cons.inj hcons'
          exact ⟨n, a, _, hbefore, hstep, rfl, rfl, hcons, .refl (by rw [State.depth, hframes]; simp)⟩
        | cons first above =>
          exact (ih hbefore (List.cons.inj hcons').2).step hstep hframes
      | leave _ hcons _ _ _ =>
        rw [show s.frames = above ++ frame :: callers from hframes, ← List.cons_append] at hcons
        exact (ih hbefore hcons).step hstep hframes

/-- The call that the code at `call` makes has just ended, and a return statement was the last thing
that it did: the function at `entry` was entered, the call was in progress up to the end of the
statement, whose code ends at `finish`, and the value on top of the stack was put into `RV`. -/
def Answered (m₀ m : Machine σ) (call entry finish : Nat) : Prop :=
  ∃ (k : Nat) (caller entered last ending : Machine σ), Steps k m₀ caller ∧
    caller.state.pc = call ∧ caller.state.frames = m.state.frames ∧
    caller.executeNext = .ok () entered ∧ entered.state.pc = entry ∧
    Deeper caller.state.depth entered last ∧ last.state.depth = caller.state.depth + 1 ∧
    last.state.pc + 2 = finish ∧ last.state.stack.back? = some (m.state.registers.get .rv) ∧
    last.executeNext = .ok () ending ∧ ending.executeNext = .ok () m

/-! ## Steps that go elsewhere -/

variable {hosts : Table (HostFunction σ)} {i : Instr} {op : Operation} {s s' : State} {w w' : σ}

/-- Only jumps, calls and returns lead elsewhere than to the next instruction. -/
theorem pc_of_transition (h : transition hosts i op s w = .ok (s', w'))
    (hjump : ∀ relative target c, op ≠ .jump relative target c)
    (hcall : ∀ target count, op ≠ .call target count) (hret : op ≠ .ret) : s'.pc = s.pc + 1 := by
  cases effect_of_transition h with
  | jump => exact absurd rfl (hjump _ _ _)
  | call => exact absurd rfl (hcall _ _)
  | ret => exact absurd rfl hret
  | _ => rfl

/-- A call of compiled code starts a call. -/
theorem frames_of_call {target count : Operand} (htarget : ∀ host, target ≠ .host host)
    (h : transition hosts i (.call target count) s w = .ok (s', w')) : s'.frames ≠ s.frames := by
  cases effect_of_transition h with
  | host => exact absurd rfl (htarget _)
  | call => exact List.cons_ne_self _ _

/-- A step that ends a call is a return, which leaves the registers alone. -/
theorem ret_of_transition (h : transition hosts i op s w = .ok (s', w'))
    (hframes : s.frames = frame :: s'.frames) : op = .ret ∧ s'.registers = s.registers := by
  cases turn_of_transition h with
  | stay hsame _ _ =>
    rw [hsame] at hframes
    exact absurd hframes.symm (List.cons_ne_self _ _)
  | enter _ _ _ _ _ _ _ hcons _ _ =>
    rw [hframes] at hcons
    have hlen := congrArg List.length hcons
    rw [List.length_cons, List.length_cons] at hlen
    omega
  | leave hop _ _ _ _ =>
    subst hop
    cases effect_of_transition h
    exact ⟨rfl, rfl⟩

/-- A pop moves the top of the stack into its register. -/
theorem back?_of_pop {r : Reg} (h : transition hosts i (.pop (.reg r)) s w = .ok (s', w')) :
    s.stack.back? = some (s'.registers.get r) := by
  cases effect_of_transition h with
  | pop hv hw =>
    cases hw
    rw [hv]
    exact congrArg some (Registers.get_set_self _ _ _).symm

end Machine

namespace TypedSetting

variable {S : TypedSetting} {f : Routine}

/-! ## Code that knows what is in `RV` -/

/-- Where a function starts, nothing is known of registers. -/
theorem regs_entry (r : Reg) : (S.stage f f.entry).regs r = none := by
  have hweaker : (S.stage f f.entry).Weaker .start := scan_weaker
  cases h : (S.stage f f.entry).regs r with
  | none => rfl
  | some ty => cases hweaker.regs h

/-- **Where a step inside a call leads.** It goes on with the next instruction, or it skips a load,
or it jumps to a place where nothing is known of `RV`. -/
theorem arrives_of_obeys {σ : Type} {hosts : Table (HostFunction σ)} {i : Instr} {op : Operation}
    {s s' : State} {w w' : σ} (ho : S.Obeys f s.pc op)
    (ht : Machine.transition hosts i op s w = .ok (s', w')) (hframes : s'.frames = s.frames) :
    s'.pc = s.pc + 1 ∨
      (s'.pc = s.pc + 2 ∧ ∃ j, S.program.code[s.pc + 1]? = some j ∧ j.op = .ldi) ∨
      (S.stage f s'.pc).regs .rv = none := by
  cases ho with
  | @jump n c target hto _ _ hrv =>
    cases Machine.effect_of_transition ht with
    | jump _ hn hpc =>
      cases hn
      rw [if_pos rfl, hto, Setting.jumpTarget_natCast] at hpc
      cases hpc
      rcases hrv with hrv | ⟨rfl, hload⟩
      · exact .inr (.inr hrv)
      · exact .inr (.inl ⟨rfl, hload⟩)
    | pass _ => exact .inl rfl
  | call _ _ _ _ _ _ => exact absurd hframes (Machine.frames_of_call (by simp) ht)
  | @host name n argc hn _ _ =>
    cases Machine.effect_of_transition ht with
    | host _ _ _ _ => exact .inl rfl
    | call hnot => exact absurd rfl (hnot name)
  | ret =>
    cases Machine.effect_of_transition ht with
    | ret hcons _ =>
      rw [hcons] at hframes
      exact absurd hframes.symm (List.cons_ne_self _ _)
  | push | reserve | pop | load | copy | store | convert | compute | change =>
    exact .inl (Machine.pc_of_transition ht (by simp) (by simp) (by simp))

/-- Routines with the same entry are the same. -/
theorem eq_of_entry (hS : S.Vetted) {g : Routine} (hf : f ∈ S.routines) (hg : g ∈ S.routines)
    (h : f.entry = g.entry) : f = g := by
  have hpos := hS.valid.nonempty f hf
  have hpos' := hS.valid.nonempty g hg
  refine hS.valid.unique f hf g hg f.entry ⟨le_rfl, by omega⟩ ⟨h.ge, by omega⟩

/-- Code that pushes `RV` knows what is in it. -/
theorem known_of_push (hS : S.Vetted) (hf : f ∈ S.routines) {pc : Nat} (hpc : f.Holds pc)
    {j : Instr} (hj : S.program.code[pc]? = some j) (hop : j.op = .push)
    (hdest : j.dest = some (.reg .rv)) : ∃ ty, (S.stage f pc).regs .rv = some ty := by
  obtain ⟨j', op, hj', hd, ho⟩ := obeys_of_checks hS hf hpc
  cases hj.symm.trans hj'
  obtain ⟨code, dest, src, comment, origin⟩ := j
  obtain rfl : code = .push := hop
  obtain rfl : dest = some (.reg .rv) := hdest
  cases src with
  | some o => cases hd
  | none =>
    cases hd
    cases ho with
    | push hshows =>
      cases hshows with
      | reg hty => exact ⟨_, hty⟩

/-- **The function whose call the code waits for.** Behind a call of compiled code, what is known to
be in `RV` is a result of the function that the call enters. -/
theorem callee_of_known (hS : S.Vetted) (hf : f ∈ S.routines) {call : Nat} (hpc : f.Holds (call + 1))
    {ty : Ty} (hty : (S.stage f (call + 1)).regs .rv = some ty) {i : Instr}
    (hi : S.program.code[call]? = some i) (hop : i.op = .call)
    (hhost : ∀ host, i.dest ≠ some (.host host)) :
    ∃ g ∈ S.routines, i.Enters g.entry g.argc ∧ (S.header g).ret = ty ∧ ty ≠ .void := by
  have hholds : f.Holds call := by
    refine ⟨?_, (Nat.lt_succ_self call).trans hpc.2⟩
    by_contra hlow
    -- a function knows nothing of `RV` where it starts
    have hentry : call + 1 = f.entry := by
      have hle := hpc.1
      omega
    rw [hentry, regs_entry] at hty
    cases hty
  obtain ⟨i', op, hi', hd, ho⟩ := obeys_of_checks hS hf hholds
  cases hi.symm.trans hi'
  cases ho with
  | @call t n g result hg ht hn _ hresult hnext =>
    obtain ⟨-, hdest, hsrc⟩ := decode_eq_call hd
    have hret := hnext.regs hty
    rw [Stage.regs_call_rv] at hret
    obtain ⟨rfl, hne⟩ := hresult ty hret
    exact ⟨g, hg, ⟨hop, ⟨t, hdest, ht⟩, ⟨n, hsrc, hn⟩⟩, rfl, hne⟩
  | host => exact absurd (decode_eq_call hd).2.1 (hhost _)
  | _ => 
    obtain ⟨code, dest, src, comment, origin⟩ := i
    obtain rfl : code = .call := hop
    cases dest <;> cases src <;> cases hd

end TypedSetting

namespace Compiler.Compilation

open Machine Lowering

variable {σ : Type} {hosts : List HostDecl} {program : Program} {image : Image}
  (c : Compilation hosts program image)

/-! ## Runs that come to a push of `RV` -/

section Runs

variable {m₀ m : Machine σ} {n : Nat} (haddr : image.Addressable) (hstart : m₀.Starts image)

include haddr hstart

/-- A push belongs to a function, and a call of the function is in progress when it is about to
run. -/
theorem routine_of_push (hrun : Steps n m₀ m) {j : Instr} (hj : image.code[m.state.pc]? = some j)
    (hop : j.op = .push) :
    ∃ f ∈ c.setting.routines, f.Holds m.state.pc ∧ m.state.frames ≠ [] := by
  obtain ⟨-, hs⟩ := c.steady_of_steps haddr hstart hrun
  have hchain := hs.chain
  cases hframes : m.state.frames with
  | nil =>
    rw [hframes] at hchain
    obtain ⟨code, dest, src, comment, origin⟩ := j
    obtain rfl : code = .push := hop
    rcases hchain.1 with hend | ⟨j', t, hj', hd, -⟩ | ⟨j', t, k, g, hj', hd, -⟩
    · rw [hend] at hj
      simp [setting] at hj
    · cases hj.symm.trans hj'
      cases dest <;> cases src <;> cases hd
    · cases hj.symm.trans hj'
      cases dest <;> cases src <;> cases hd
  | cons frame callers =>
    rw [hframes] at hchain
    obtain ⟨f, hf, hactive, -⟩ := hchain
    exact ⟨f, hf, hactive.holds, by simp⟩

/-- **How a run comes to code that knows what is in `RV`.** Behind an instruction that is not a load,
the last step was this instruction or the return from a call. -/
theorem step_before_known (hrun : Steps n m₀ m) {f : Routine} (hf : f ∈ c.setting.routines)
    (hpc : f.Holds m.state.pc) (hne : m.state.frames ≠ []) {ty : Ty}
    (hty : (c.typedSetting.stage f m.state.pc).regs .rv = some ty) {before : Nat} {i : Instr}
    (hbefore : m.state.pc = before + 1) (hi : image.code[before]? = some i) (hop : i.op ≠ .ldi) :
    ∃ k a, n = k + 1 ∧ Steps k m₀ a ∧ a.executeNext = .ok () m ∧
      ((a.state.pc = before ∧ a.state.frames = m.state.frames) ∨
        ∃ frame, a.state.frames = frame :: m.state.frames ∧ m.state.pc = frame.returnPc) := by
  have hS := c.vetted haddr
  cases n with
  | zero =>
    cases hrun
    rw [hstart.2] at hne
    exact absurd rfl hne
  | succ n =>
    obtain ⟨a, hrun', hlast⟩ := hrun.split
    cases hlast with
    | step hstep hend =>
      cases hend
      refine ⟨n, a, rfl, hrun', hstep, ?_⟩
      obtain ⟨himage, hs⟩ := c.steady_of_steps haddr hstart hrun'
      obtain ⟨j, op, s, w, hj, hd, ht, rfl⟩ := executeNext_eq_ok_iff.mp hstep
      rw [himage] at hj
      -- where a function starts, nothing is known of `RV`
      have hentered {g : Routine} (hg : g ∈ c.setting.routines) (hentry : s.pc = g.entry) : False := by
        have hpos := hS.valid.nonempty g hg
        obtain rfl := hS.valid.unique f hf g hg s.pc hpc ⟨hentry.ge, by omega⟩
        rw [show (a.moved a.state.pc j s w).state.pc = f.entry from hentry,
          TypedSetting.regs_entry] at hty
        cases hty
      cases (hs.step hS.valid hj hd ht).2 with
      | @stay g _ hg hfrom hto _ hframes =>
        obtain rfl := hS.valid.unique f hf g hg s.pc hpc hto
        obtain ⟨j', op', hj', hd', ho⟩ := TypedSetting.obeys_of_checks hS hg hfrom
        cases hj.symm.trans hj'
        cases hd.symm.trans hd'
        have hpc' : s.pc = before + 1 := hbefore
        rcases TypedSetting.arrives_of_obeys ho ht hframes with hnext | ⟨hskip, k, hk, hload⟩ | hnone
        · exact .inl ⟨by omega, hframes.symm⟩
        · -- the instruction in front would be the load that is skipped
          rw [show a.state.pc + 1 = before by omega] at hk
          cases hi.symm.trans hk
          exact absurd hload hop
        · cases hnone.symm.trans hty
      | call _ _ _ _ _ _ hg hentry _ => exact (hentered hg hentry).elim
      | @ret frame rest hframes hrest hto =>
        refine .inr ⟨frame, ?_, hto⟩
        rw [hframes]
        exact congrArg _ hrest.symm
      | boot _ _ hg _ hentry => exact (hentered hg hentry).elim
      | rest _ hnil => exact absurd hnil hne

/-- **A push of `RV` behind a call is reached by the return from the call**, which the function that
the call enters has made. -/
theorem ended_of_push (hrun : Steps n m₀ m) {call : Nat} {i j : Instr}
    (hpc : m.state.pc = call + 1) (hi : image.code[call]? = some i) (hop : i.op = .call)
    (hhost : ∀ host, i.dest ≠ some (.host host)) (hj : image.code[call + 1]? = some j)
    (hpush : j.op = .push) (hdest : j.dest = some (.reg .rv)) :
    ∃ d ∈ c.definitions, ∃ e, image.symbols.code.get? d.source.name = some e ∧
      i.Enters e.addr d.argc ∧ d.routine e.addr ∈ c.setting.routines ∧ d.source.ret ≠ .void ∧
      ∃ k b frame, n = k + 1 ∧ Steps k m₀ b ∧ b.executeNext = .ok () m ∧
        b.state.frames = frame :: m.state.frames ∧ frame.returnPc = call + 1 ∧
        (d.routine e.addr).Holds b.state.pc := by
  have hS := c.vetted haddr
  rw [← hpc] at hj
  obtain ⟨f, hf, hholds, hne⟩ := c.routine_of_push haddr hstart hrun hj hpush
  obtain ⟨ty, hty⟩ := TypedSetting.known_of_push hS hf hholds hj hpush hdest
  obtain ⟨k, b, rfl, hbefore, hstep, hlast⟩ := c.step_before_known haddr hstart hrun hf hholds hne hty
    hpc hi (by rw [hop]; decide)
  rcases hlast with ⟨hcall, hframes⟩ | ⟨frame, hframes, hreturn⟩
  · -- a call of compiled code does not go on with the next instruction
    obtain ⟨himage, -⟩ := c.steady_of_steps haddr hstart hbefore
    obtain ⟨i', op, s, w, hi', hd, ht, rfl⟩ := executeNext_eq_ok_iff.mp hstep
    rw [himage, hcall] at hi'
    cases hi.symm.trans hi'
    obtain ⟨target, count, rfl⟩ : ∃ target count, op = .call target count := by
      obtain ⟨code, dest, src, comment, origin⟩ := i
      obtain rfl : code = .call := hop
      cases dest <;> cases src <;> cases hd
      exact ⟨_, _, rfl⟩
    refine absurd hframes.symm (frames_of_call ?_ ht)
    rintro host rfl
    exact hhost host (decode_eq_call hd).2.1
  · -- the call that ends is the one in front of the push
    rw [hpc] at hholds hty
    obtain ⟨g, hg, henters, hret, hvoid⟩ := TypedSetting.callee_of_known hS hf hholds hty hi hop hhost
    obtain ⟨-, -, hwithin⟩ := c.within_of_steps haddr hstart hbefore
    have hw := hwithin (by rw [hframes]; simp)
    rw [hframes] at hw
    obtain ⟨call', i', name, e, hcall, hi', henters', he, hfun, -⟩ := hw
    obtain rfl : call = call' := by omega
    cases hi.symm.trans hi'
    obtain ⟨d, hd, rfl, -, hr, hpc'⟩ := c.routine_of_functionAt? hfun
    have hentry : e.addr = g.entry := by
      obtain ⟨t, ht, htaddr⟩ := henters.dest
      obtain ⟨t', ht', htaddr'⟩ := henters'.dest
      cases ht.symm.trans ht'
      omega
    obtain rfl : d.routine e.addr = g := TypedSetting.eq_of_entry hS hr hg hentry
    rw [c.header_routine hd hr] at hret
    rw [← hret] at hvoid
    exact ⟨d, hd, e, he, henters, hr, hvoid, k, b, frame, rfl, hbefore, hstep, hframes, hcall, hpc'⟩

/-- **An orderly return from a function with a result.** A return statement made it: the code of the
statement ends there, and `RV` holds a value of the type of the function. -/
theorem returns_of_orderly (hrun : Steps n m₀ m) (htold : c.typedSetting.Told m₀ m)
    (horderly : image.Orderly c.progress.scope m.state) {d : Definition} (hd : d ∈ c.definitions)
    {entry : Nat} (hr : d.routine entry ∈ c.setting.routines)
    (hpc : (d.routine entry).Holds m.state.pc) (hvoid : d.source.ret ≠ .void) {j : Instr}
    (hj : image.code[m.state.pc]? = some j) (hret : j.decode = .ok .ret) :
    (m.state.registers.get .rv).ty = d.source.ret ∧
      (c.typedSetting.stage (d.routine entry) m.state.pc).regs .rv = some d.source.ret ∧
      c.typedSetting.Returns (d.routine entry) m.state.pc := by
  have hS := c.vetted haddr
  obtain ⟨-, hs⟩ := c.steady_of_steps haddr hstart hrun
  obtain ⟨j', op, hj', hd', ho⟩ := TypedSetting.obeys_of_checks hS hr hpc
  cases hj.symm.trans hj'
  cases hret.symm.trans hd'
  have hheader := congrArg Header.ret (c.header_routine hd hr)
  have hends := (c.allows_of_orderly horderly _ hr hpc j .ret hj hret).2 rfl
  cases ho with
  | ret hways =>
    rw [hheader] at hways hends
    obtain ⟨hknown, hreturns⟩ := (hways.resolve_left hvoid).resolve_right (hends.resolve_left hvoid)
    refine ⟨?_, hknown, hreturns⟩
    cases hframes : m.state.frames with
    | nil =>
      have hchain := hs.chain
      rw [hframes] at hchain
      exact absurd hpc (hS.valid.not_holds_of_atRest hr hchain.1)
    | cons frame callers =>
      obtain ⟨f, hf, hscene, -⟩ := htold.scene hS hs hframes
      obtain rfl := c.holds_unique hf hr hscene.active.holds hpc
      exact hscene.regs .rv _ hknown

/-- The last step in front of the return of a return statement takes the result off the stack. -/
theorem popped_of_returns (hrun : Steps n m₀ m) {f : Routine} (hf : f ∈ c.setting.routines)
    (hpc : f.Holds m.state.pc) (hne : m.state.frames ≠ []) {ty : Ty}
    (hty : (c.typedSetting.stage f m.state.pc).regs .rv = some ty) {before : Nat} {j : Instr}
    (hbefore : m.state.pc = before + 1) (hj : image.code[before]? = some j) (hop : j.op = .pop)
    (hdest : j.dest = some (.reg .rv)) :
    ∃ k a, Steps k m₀ a ∧ a.executeNext = .ok () m ∧ a.state.pc = before ∧
      a.state.frames = m.state.frames ∧ a.state.stack.back? = some (m.state.registers.get .rv) := by
  obtain ⟨k, a, rfl, hrun', hstep, hlast⟩ := c.step_before_known haddr hstart hrun hf hpc hne hty
    hbefore hj (by rw [hop]; decide)
  rcases hlast with ⟨hfrom, hframes⟩ | ⟨frame, hframes, hreturn⟩
  · refine ⟨k, a, hrun', hstep, hfrom, hframes, ?_⟩
    obtain ⟨himage, -⟩ := c.steady_of_steps haddr hstart hrun'
    obtain ⟨j', op, s, w, hj', hd, ht, rfl⟩ := executeNext_eq_ok_iff.mp hstep
    rw [himage, hfrom] at hj'
    cases hj.symm.trans hj'
    obtain ⟨code, dest, src, comment, origin⟩ := j
    obtain rfl : code = .pop := hop
    obtain rfl : dest = some (.reg .rv) := hdest
    cases src with
    | some o => cases hd
    | none =>
      cases hd
      exact back?_of_pop ht
  · -- a call would have to be in front of the address that it returns to
    obtain ⟨-, -, hwithin⟩ := c.within_of_steps haddr hstart hrun'
    have hw := hwithin (by rw [hframes]; simp)
    rw [hframes] at hw
    obtain ⟨call, i, _, _, hcall, hi, henters, -⟩ := hw
    obtain rfl : before = call := by omega
    cases hj.symm.trans hi
    cases hop.symm.trans henters.op

include c in
/-- The call in progress was made by the call instruction in front of its return address. -/
theorem made_of_enters (hrun : Steps n m₀ m) {frame : CallFrame} {callers : List CallFrame}
    (hframes : m.state.frames = frame :: callers) {call entry argc : Nat} {i : Instr}
    (hreturn : frame.returnPc = call + 1) (hi : image.code[call]? = some i)
    (henters : i.Enters entry argc) :
    ∃ k caller entered, Steps k m₀ caller ∧ caller.state.pc = call ∧
      caller.state.frames = callers ∧ caller.executeNext = .ok () entered ∧
      entered.state.pc = entry ∧ Deeper callers.length entered m := by
  obtain ⟨k, caller, entered, hcaller, hstep, hpc, hbelow, hcons, hdeep⟩ :=
    made_of_steps (by rw [hstart.2]; rfl) hrun (hframes.trans (List.nil_append _).symm)
  obtain rfl : caller.state.pc = call := by omega
  refine ⟨k, caller, entered, hcaller, rfl, hbelow, hstep, ?_, hdeep⟩
  obtain ⟨himage, -⟩ := c.steady_of_steps haddr hstart hcaller
  obtain ⟨i', op, s, w, hi', hd, ht, rfl⟩ := executeNext_eq_ok_iff.mp hstep
  rw [himage] at hi'
  cases hi.symm.trans hi'
  rw [← hbelow] at hcons
  cases turn_of_transition ht with
  | stay hsame _ _ => exact absurd (hsame.symm.trans hcons).symm (List.cons_ne_self _ _)
  | enter hop _ hn hargc ht' htarget _ _ _ _ =>
    subst hop
    exact (henters.entered hd hn hargc ht' htarget).2
  | leave _ hleft _ _ _ =>
    have hlen := congrArg List.length hleft
    rw [show s.frames = frame :: caller.state.frames from hcons] at hlen
    simp only [List.length_cons] at hlen
    omega

end Runs

end Compiler.Compilation

/-- **The value of a call is the one that a return statement of the call gave it.** A compiled program
is run in which every instruction so far has kept to its arrays, and every function with a result has
ended through a return statement. When it is about to push `RV` behind a call of compiled code, `RV`
holds a value of the type of the function that the call enters. The call in front has just ended: it
was made in a state of the run with the same calls in progress as now, and a return statement of the
function has taken the value off the stack as the last thing that was done in it. -/
theorem call_value_returned {σ : Type} {hosts : List HostDecl} {program : Program} {image : Image}
    (hcompile : compile hosts program = .ok image) (haddr : image.Addressable) :
    Nonempty (Compiler.Compilation hosts program image) ∧
    ∀ (c : Compiler.Compilation hosts program image) {m₀ m : Machine σ} {n : Nat},
      m₀.Starts image → Machine.Steps n m₀ m →
      (∀ k a, k < n → Machine.Steps k m₀ a → image.Orderly c.progress.scope a.state) →
      ∀ (call : Nat) (i j : Instr), m.state.pc = call + 1 → image.code[call]? = some i →
        i.op = .call → (∀ host, i.dest ≠ some (.host host)) → image.code[call + 1]? = some j →
        j.op = .push → j.dest = some (.reg .rv) →
        ∃ d ∈ c.definitions, ∃ e, image.symbols.code.get? d.source.name = some e ∧
          i.Enters e.addr d.argc ∧ (m.state.registers.get .rv).ty = d.source.ret ∧
          ∃ o x loc code draft, d.Contains e.addr o ∧ o.stmt = .ret (some x) loc ∧
            Lowering.lowerStmt o.site o.stmt o.draft = .ok (code, draft) ∧
            Machine.Answered m₀ m call e.addr (o.addr + code.size) := by
  obtain ⟨c₀, -⟩ := Compiler.exists_compilation hcompile
  refine ⟨⟨c₀⟩, ?_⟩
  intro c m₀ m n hstart hrun horderly call i j hpc hi hop hhost hj hpush hdest
  obtain ⟨d, hd, e, he, henters, hr, hvoid, k, ending, frame, rfl, hending, hleave, hframes, hreturn,
    hholds⟩ := c.ended_of_push haddr hstart hrun hpc hi hop hhost hj hpush hdest
  obtain ⟨himage, -⟩ := c.steady_of_steps haddr hstart hending
  -- the step that ends the call is a return, and `RV` is as it was in front of it
  obtain ⟨l, op, s, w, hl, hdecode, ht, hm⟩ := Machine.executeNext_eq_ok_iff.mp hleave
  rw [himage] at hl
  have hstate : m.state = s := congrArg Machine.state hm
  rw [hstate] at hframes ⊢
  obtain ⟨rfl, hregisters⟩ := Machine.ret_of_transition ht hframes
  have htold := c.told_of_steps haddr hstart hending fun k' a hk => horderly k' a (by omega)
  obtain ⟨hty, hknown, o, x, loc, code, draft, before, q, hcontains, hstmt, hlower, hfinish, hbefore,
    hq, hqop, hqdest⟩ := c.returns_of_orderly haddr hstart hending htold
      (horderly k ending (Nat.lt_succ_self k) hending) hd hr hholds hvoid hl hdecode
  obtain ⟨k₁, last, hlast, hpop, hat, hsame, htop⟩ := c.popped_of_returns haddr hstart hending hr
    hholds (by rw [hframes]; simp) hknown hbefore hq hqop hqdest
  rw [hframes] at hsame
  obtain ⟨k₂, caller, entered, hcaller, hcall, hcallers, hentered, haddr', hdeep⟩ :=
    c.made_of_enters haddr hstart hlast hsame hreturn hi henters
  rw [c.header_routine hd hr] at hcontains
  rw [← hregisters] at hty htop
  refine ⟨d, hd, e, he, henters, hty, o, x, loc, code, draft, hcontains, hstmt, hlower, k₂, caller,
    entered, last, ending, hcaller, hcall, ?_, hentered, haddr', ?_, ?_, ?_, ?_, hpop, hleave⟩
  · rw [hcallers, hstate]
  · rwa [State.depth, hcallers]
  · rw [State.depth, State.depth, hsame, hcallers, List.length_cons]
  · omega
  · rw [htop, hstate]


/-- A program that calls a function with the result of a call of the same function. The first call ends
with one of its return statements, the second call with the other one. -/
def choosing : Program :=
  ⟨[Build.func "pick" [Build.param .int "x"] .int
      [Build.branch (Build.ident "x") (Build.block [Build.ret (some (Build.ident "x"))]) none,
        Build.ret (some (Build.lit (.int 7)))],
    Build.func "main" [] .void
      [Build.var .int "y" (some (Build.call "pick" [Build.call "pick" [Build.lit (.int 0)]]))]]⟩

/-- The program comes to the push behind its second call, and `RV` holds what the return statement in
the branch has given it. -/
theorem call_value_returned_choosing :
    ∃ (n : Nat) (m : Machine Unit) (entry finish : Nat),
      Machine.Steps n (.load (imageOf [] choosing) ()) m ∧ m.state.pc = 17 ∧
      m.state.registers.get .rv = .int 7 ∧
      Machine.Answered (.load (imageOf [] choosing) ()) m 16 entry finish := by
  have hcompile : compile [] choosing = .ok (imageOf [] choosing) :=
    compile_eq_ok_imageOf (by decide +kernel)
  have haddr : (imageOf [] choosing).Addressable := by
    unfold Image.Addressable
    decide +kernel
  have hpaused : (Machine.runWhile (fun _ => true) 18 (.load (imageOf [] choosing) ())).2 = none ∧
      (Machine.runWhile (fun _ => true) 18 (.load (imageOf [] choosing) ())).1.state.pc = 17 ∧
      (Machine.runWhile (fun _ => true) 18
        (.load (imageOf [] choosing) ())).1.state.registers.get .rv = .int 7 := by decide +kernel
  have horderly : (Compiler.translate [] choosing).toOption.all (fun p =>
      (Machine.load (imageOf [] choosing) ()).isOrderly (imageOf [] choosing) p.scope 30) = true := by
    decide +kernel
  have hcall : (imageOf [] choosing).code[16]?.map (fun i => (i.op, i.dest)) =
      some (.call, some (.imm (.int 2))) := by decide +kernel
  have hpush : (imageOf [] choosing).code[17]?.map (fun i => (i.op, i.dest)) =
      some (.push, some (.reg .rv)) := by decide +kernel
  generalize imageOf [] choosing = image at *
  obtain ⟨hnone, hpc, hrv⟩ := hpaused
  obtain ⟨n, hrun⟩ := Machine.steps_of_runWhile hnone
  obtain ⟨i, hi, hi'⟩ := Option.map_eq_some_iff.mp hcall
  obtain ⟨j, hj, hj'⟩ := Option.map_eq_some_iff.mp hpush
  obtain ⟨hiop, hidest⟩ := Prod.mk.inj hi'
  obtain ⟨hjop, hjdest⟩ := Prod.mk.inj hj'
  obtain ⟨c, hc⟩ := Compiler.exists_compilation hcompile
  rw [hc] at horderly
  obtain ⟨-, hvalues⟩ := call_value_returned (σ := Unit) hcompile haddr
  obtain ⟨d, -, e, -, -, -, o, x, loc, code, draft, -, -, -, hanswered⟩ := hvalues c
    (Machine.starts_load _ ()) hrun (fun k a _ ha => Machine.orderly_of_isOrderly horderly ha) 16 i j
    hpc hi hiop (by rw [hidest]; simp) hj hjop hjdest
  exact ⟨n, _, e.addr, _, hrun, hpc, hrv, hanswered⟩

/-- A program with a function that does not return the number that it should. -/
def leftOver : Program :=
  ⟨[Build.func "text" [] .string [Build.ret (some (Build.lit (.str "abc")))],
    Build.func "number" [] .int [],
    Build.func "main" [] .void
      [Build.expr (Build.call "text" []),
        Build.var .int "y" (some (Build.call "number" []))]]⟩

/-- **A call need not have a value of its type.** Here the result of a function is declared as a
number, but its call leaves the text in `RV` that the call before has left there. There are no arrays
that an access could miss. -/
theorem text_left_by_other_call :
    compile [] leftOver = .ok (imageOf [] leftOver) ∧
    (∀ i ∈ (imageOf [] leftOver).code, i.indexed = []) ∧
    ∃ (n : Nat) (m : Machine Unit) (i j : Instr) (e : CodeEntry),
      Machine.Steps n (.load (imageOf [] leftOver) ()) m ∧ m.state.pc = 10 ∧
      (imageOf [] leftOver).code[9]? = some i ∧
      (imageOf [] leftOver).symbols.code.get? "number" = some e ∧ i.Enters e.addr 0 ∧ e.ret = .int ∧
      (imageOf [] leftOver).code[10]? = some j ∧ j.op = .push ∧ j.dest = some (.reg .rv) ∧
      (m.state.registers.get .rv).ty = .string := by
  have hcompile : compile [] leftOver = .ok (imageOf [] leftOver) :=
    compile_eq_ok_imageOf (by decide +kernel)
  have hpaused : (Machine.runWhile (fun _ => true) 8 (.load (imageOf [] leftOver) ())).2 = none ∧
      (Machine.runWhile (fun _ => true) 8 (.load (imageOf [] leftOver) ())).1.state.pc = 10 ∧
      ((Machine.runWhile (fun _ => true) 8
        (.load (imageOf [] leftOver) ())).1.state.registers.get .rv).ty = .string := by
    decide +kernel
  have hcall : (imageOf [] leftOver).code[9]?.map (fun i => (i.op, i.dest, i.src)) =
      some (.call, some (.imm (.int 6)), some (.imm (.int 0))) := by decide +kernel
  have hpush : (imageOf [] leftOver).code[10]?.map (fun i => (i.op, i.dest)) =
      some (.push, some (.reg .rv)) := by decide +kernel
  have hnumber : ((imageOf [] leftOver).symbols.code.get? "number").map (fun e => (e.addr, e.ret)) =
      some (6, .int) := by decide +kernel
  have hplain : ∀ i ∈ (imageOf [] leftOver).code, i.indexed = [] := by decide +kernel
  generalize imageOf [] leftOver = image at *
  refine ⟨hcompile, hplain, ?_⟩
  obtain ⟨hnone, hpc, hty⟩ := hpaused
  obtain ⟨n, hrun⟩ := Machine.steps_of_runWhile hnone
  obtain ⟨i, hi, hi'⟩ := Option.map_eq_some_iff.mp hcall
  obtain ⟨j, hj, hj'⟩ := Option.map_eq_some_iff.mp hpush
  obtain ⟨e, he, he'⟩ := Option.map_eq_some_iff.mp hnumber
  obtain ⟨hiop, hrest⟩ := Prod.mk.inj hi'
  obtain ⟨hidest, hisrc⟩ := Prod.mk.inj hrest
  obtain ⟨hjop, hjdest⟩ := Prod.mk.inj hj'
  obtain ⟨haddr, hret⟩ := Prod.mk.inj he'
  refine ⟨n, _, i, j, e, hrun, hpc, hi, he, ?_, hret, hj, hjop, hjdest, hty⟩
  rw [haddr]
  exact ⟨hiop, ⟨6, hidest, rfl⟩, ⟨0, hisrc, rfl⟩⟩

end Stepwise
