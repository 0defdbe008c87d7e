import Mathlib
import Stepwise.Proofs.FunctionTyping
import Stepwise.Proofs.TypedSteps

/-!
# Types along runs

In every call in progress the values on the stack are as the stage at its address says, not only in
the innermost one. They have been there since their instruction pushed them, so the arguments of a
call are what the code of the arguments left, in their order.

## Main definitions

* `Machine.Keeps`, `Machine.Left`: a value that has been in its slot since it was pushed
* `Chain`: the stages of all calls in progress
* `Told`: a machine is as the stages say
* `Allows`: a step that keeps to its arrays and does not fall off the end of a function

## Main results

* `Told.step`: a step keeps a machine as the stages say
* `Told.tolerated`: how a step can fail
-/

namespace Stepwise

namespace Machine

/-! ## Values that stay on the stack -/

variable {σ : Type} {bp p n : Nat} {v : Value} {a m m' m₀ : Machine σ} {temp : Temp}

/-- A value is in a slot of the stack all along a run. -/
inductive Keeps (p : Nat) (v : Value) : Machine σ → Machine σ → Prop
  | refl {m : Machine σ} : m.state.stack[p]? = some v → Keeps p v m m
  | step {a m m' : Machine σ} : Keeps p v a m → m.executeNext = .ok () m' →
    m'.state.stack[p]? = some v → Keeps p v a m'

namespace Keeps

theorem last (h : Keeps p v a m) : m.state.stack[p]? = some v := by
  cases h with
  | refl hv => exact hv
  | step _ _ hv => exact hv

/-- A run in which a value stays is over, or it has a first step. -/
theorem eq_or_step (h : Keeps p v a m) :
    a = m ∨ ∃ b, a.executeNext = .ok () b ∧ Keeps p v b m := by
  induction h with
  | refl => exact .inl rfl
  | step _ hs hv ih =>
    right
    rcases ih with rfl | ⟨b, hb, hkeeps⟩
    · exact ⟨_, hs, .refl hv⟩
    · exact ⟨b, hb, hkeeps.step hs hv⟩

end Keeps

/-- The value in a slot was on top of the stack when a run of the call with its link slot at `bp` came
to the address where a stage has it from, and it has been there since. -/
def Left (m₀ m : Machine σ) (bp p : Nat) (temp : Temp) : Prop :=
  ∃ v a n, temp.Has v ∧ Steps n m₀ a ∧ a.state.pc = temp.born ∧ a.state.bp = bp ∧
    a.state.sp = p + 1 ∧ Keeps p v a m

theorem Left.has (h : Left m₀ m bp p temp) : ∃ v, m.state.stack[p]? = some v ∧ temp.Has v := by
  obtain ⟨v, _, _, hhas, -, -, -, -, hkeeps⟩ := h
  exact ⟨v, hkeeps.last, hhas⟩

/-- A step that leaves a slot alone. -/
theorem Left.step (h : Left m₀ m bp p temp) (hs : m.executeNext = .ok () m')
    (hp : m'.state.stack[p]? = m.state.stack[p]?) : Left m₀ m' bp p temp := by
  obtain ⟨v, a, n, hhas, hrun, hpc, hbp, hsp, hkeeps⟩ := h
  exact ⟨v, a, n, hhas, hrun, hpc, hbp, hsp, hkeeps.step hs (hp.trans hkeeps.last)⟩

/-- A value that has just been pushed. -/
theorem left_of_pushed (hrun : Steps n m₀ m) (hpc : m.state.pc = temp.born)
    (hsp : m.state.sp = p + 1) (hv : m.state.stack[p]? = some v) (hhas : temp.Has v) :
    Left m₀ m m.state.bp p temp :=
  ⟨v, m, n, hhas, hrun, hpc, rfl, hsp, .refl hv⟩

end Machine

namespace TypedSetting

open Machine

/-! ## The stages of all calls in progress -/

/-- A caller knows nothing of registers but the type of the result that it waits for. -/
def Awaits (S : TypedSetting) (g : Routine) (t : Stage) : Prop :=
  ∀ r ty, t.regs r = some ty → r = .rv ∧ ty = (S.header g).ret ∧ ty ≠ .void

/-- A call in progress is as the stage at its address says, where `P` tells what is said of the value
in a slot. -/
structure Informed (S : TypedSetting) (P : Nat → Nat → Temp → Prop) (types : Array Ty) (f : Routine)
    (pc bp sp : Nat) : Prop where
  holds : f.Holds pc
  bp_lt : bp < sp
  temps : ∀ k temp, (S.stage f pc).temps[k]? = some temp → P bp (sp - (k + 1)) temp
  params : ∀ k ty, (S.header f).params[k]? = some ty → types[bp - (k + 1)]? = some ty

/-- All calls in progress are as the stages at their addresses say, from the innermost one outward;
`K` holds of the first stage. -/
def Chain (S : TypedSetting) (P : Nat → Nat → Temp → Prop) (types : Array Ty) :
    (Stage → Prop) → List CallFrame → Nat → Nat → Nat → Prop
  | _, [], _, _, _ => True
  | K, frame :: rest, pc, bp, sp =>
    ∃ f ∈ S.routines, S.Informed P types f pc bp sp ∧ K (S.stage f pc) ∧
      Chain S P types (S.Awaits f) rest frame.returnPc frame.bp (bp - f.argc)

section Chain

variable {S : TypedSetting} {P P' : Nat → Nat → Temp → Prop} {types types' : Array Ty} {f : Routine}
  {pc bp sp : Nat}

/-- Only what lies below the top of the stack matters. -/
theorem Informed.mono (h : S.Informed P types f pc bp sp)
    (hP : ∀ bp p temp, p < sp → P bp p temp → P' bp p temp)
    (htypes : ∀ i < sp, types'[i]? = types[i]?) : S.Informed P' types' f pc bp sp where
  holds := h.holds
  bp_lt := h.bp_lt
  temps k temp hk := by
    have hlt := h.bp_lt
    exact hP _ _ _ (by omega) (h.temps k temp hk)
  params k ty hk := by
    have hlt := h.bp_lt
    rw [htypes _ (by omega)]
    exact h.params k ty hk

/-- A call that goes on without its topmost values. -/
theorem Informed.drop (h : S.Informed P types f pc bp sp) {argc pc' : Nat}
    (hnext : (S.stage f pc').temps = (S.stage f pc).temps.drop argc) (hholds : f.Holds pc')
    (hlt : bp < sp - argc) : S.Informed P types f pc' bp (sp - argc) where
  holds := hholds
  bp_lt := hlt
  temps k temp hk := by
    rw [hnext, List.getElem?_drop] at hk
    rw [Nat.sub_sub, ← Nat.add_assoc]
    exact h.temps _ temp hk
  params := h.params

theorem Chain.mono {K K' : Stage → Prop} {frames : List CallFrame}
    (h : S.Chain P types K frames pc bp sp)
    (hP : ∀ bp p temp, p < sp → P bp p temp → P' bp p temp)
    (htypes : ∀ i < sp, types'[i]? = types[i]?) (hK : ∀ t, K t → K' t) :
    S.Chain P' types' K' frames pc bp sp := by
  induction frames generalizing K K' pc bp sp with
  | nil => trivial
  | cons frame rest ih =>
    obtain ⟨f, hf, hinf, hknown, hrest⟩ := h
    have hlt := hinf.bp_lt
    refine ⟨f, hf, hinf.mono hP htypes, hK _ hknown, ih hrest ?_ ?_ fun t ht => ht⟩
    · intro bp' p temp hp
      exact hP bp' p temp (by omega)
    · intro i hi
      exact htypes i (by omega)

/-- A function starts with nothing known of the stack and of registers. -/
theorem stage_entry (S : TypedSetting) (g : Routine) : (S.stage g g.entry).Weaker .start :=
  scan_weaker

end Chain

/-! ## Machines -/

section Machines

variable {σ : Type} {S : TypedSetting} {m₀ m m' : Machine σ} {n : Nat} {f : Routine}
  {frame : CallFrame} {rest : List CallFrame}

/-- A machine is as the stages of its calls in progress say. -/
def Told (S : TypedSetting) (m₀ m : Machine σ) : Prop :=
  S.Chain (Left m₀ m) m.state.stackTypes (fun t => t.Fits m.state.registers) m.state.frames
    m.state.pc m.state.bp m.state.sp

/-- The innermost call of a coherent state. -/
theorem Told.scene (hS : S.Vetted) (hs : S.Steady m.state) (h : S.Told m₀ m)
    (hframes : m.state.frames = frame :: rest) :
    ∃ f ∈ S.routines, S.Scene f frame m.state ∧
      S.Informed (Left m₀ m) m.state.stackTypes f m.state.pc m.state.bp m.state.sp ∧
      S.Chain (Left m₀ m) m.state.stackTypes (S.Awaits f) rest frame.returnPc frame.bp
        (m.state.bp - f.argc) := by
  obtain ⟨hchain, hglobals⟩ := hs
  unfold Told at h
  rw [hframes] at h hchain
  obtain ⟨f, hf, hinf, hfits, hrest⟩ := h
  obtain ⟨f', hf', hactive, -⟩ := hchain
  obtain rfl := hS.valid.unique f hf f' hf' _ hinf.holds hactive.holds
  refine ⟨f, hf, ⟨hactive, hglobals, hinf.params, ?_, hfits⟩, hinf, hrest⟩
  intro k temp hk
  exact (hinf.temps k temp hk).has

/-- The arguments of a call are on the stack. -/
theorem Scene.lt_bp (hS : S.Vetted) (hf : f ∈ S.routines) {s : State} (h : S.Scene f frame s)
    {k : Nat} {ty : Ty} (hk : (S.header f).params[k]? = some ty) : k < s.bp := by
  have hlt := (List.getElem?_eq_some_iff.mp hk).1
  have hlen := hS.params hf
  have hle := h.active.argc_le
  omega

/-- A step that stays in its call. -/
theorem Told.stays (hS : S.Vetted) (hrun : Steps n m₀ m') (hstep : m.executeNext = .ok () m')
    (hf : f ∈ S.routines) (hframes : m.state.frames = frame :: rest)
    (hscene : S.Scene f frame m.state)
    (hinf : S.Informed (Left m₀ m) m.state.stackTypes f m.state.pc m.state.bp m.state.sp)
    (hrest : S.Chain (Left m₀ m) m.state.stackTypes (S.Awaits f) rest frame.returnPc frame.bp
      (m.state.bp - f.argc))
    (hstays : S.Stays f m.state m'.state) (hholds : f.Holds m'.state.pc)
    (hbp : m'.state.bp < m'.state.sp) : S.Told m₀ m' := by
  unfold Told
  rw [hstays.frames, hframes]
  refine ⟨f, hf, ⟨hholds, hbp, ?_, ?_⟩, hstays.regs, ?_⟩
  · intro k temp hk
    -- a value on the stack was pushed by this step or has been left alone by it
    rcases hstays.temps k temp hk with ⟨v, hv, hhas, hborn, rfl⟩ | ⟨i, hi, hpos, hsame⟩
    · exact left_of_pushed hrun hborn.symm (by omega) hv hhas
    · rw [← hpos] at hsame ⊢
      rw [hstays.bp]
      exact (hinf.temps i temp hi).step hstep hsame
  · intro k ty hk
    have hlt := hscene.lt_bp hS hf hk
    rw [hstays.bp, hstays.types _ (by omega)]
    exact hinf.params k ty hk
  · rw [hstays.bp]
    refine hrest.mono ?_ ?_ fun t ht => ht
    · intro bp p temp hp hleft
      exact hleft.step hstep (hstays.callers p (by omega))
    · intro i hi
      exact getElem?_stackTypes_congr (hstays.callers i (by omega))

/-- A step that enters a function from callers that wait for it. -/
theorem Told.enter (hS : S.Vetted) (hstep : m.executeNext = .ok () m') {g : Routine}
    (hg : g ∈ S.routines)
    (hstate : m'.state = advance m.state.pc (.jump g.entry) (enter m.state.pc g.argc m.state))
    (hargs : ∀ k ty, (S.header g).params[k]? = some ty → m.state.sp - (k + 1) < m.state.sp ∧
      m.state.stackTypes[m.state.sp - (k + 1)]? = some ty)
    (hcallers : S.Chain (Left m₀ m) m.state.stackTypes (S.Awaits g) m.state.frames
      (m.state.pc + 1) m.state.bp (m.state.sp - g.argc)) : S.Told m₀ m' := by
  have hentry := S.stage_entry g
  have hsp : m'.state.sp = m.state.sp + 1 := by
    rw [hstate]
    exact Array.size_push _
  -- entering pushes the link slot and touches nothing below
  have hstack {i : Nat} (hi : i < m.state.sp) : m'.state.stack[i]? = m.state.stack[i]? := by
    rw [hstate]
    exact getElem?_push_of_lt hi
  unfold Told
  rw [hsp, show m'.state.frames = ⟨m.state.pc + 1, m.state.bp, g.argc⟩ :: m.state.frames by
    rw [hstate]; rfl, show m'.state.pc = g.entry by rw [hstate]; rfl,
    show m'.state.bp = m.state.sp by rw [hstate]; rfl]
  refine ⟨g, hg, ⟨⟨le_rfl, ?_⟩, Nat.lt_succ_self _, ?_, ?_⟩, ?_, ?_⟩
  · have hpos := hS.valid.nonempty g hg
    omega
  · intro k temp hk
    rw [hentry.temps] at hk
    cases hk
  · intro k ty hk
    obtain ⟨hlt, hty⟩ := hargs k ty hk
    rwa [getElem?_stackTypes_congr (hstack hlt)]
  · intro r ty hr
    cases hentry.regs hr
  · refine hcallers.mono ?_ ?_ fun t ht => ht
    · intro bp p temp hp hleft
      exact hleft.step hstep (hstack (by omega))
    · intro i hi
      exact getElem?_stackTypes_congr (hstack (by omega))

/-- A step that returns: the caller finds the result that it waits for. -/
theorem Told.leave (hstep : m.executeNext = .ok () m')
    (hscene : S.Scene f frame m.state)
    (hrest : S.Chain (Left m₀ m) m.state.stackTypes (S.Awaits f) rest frame.returnPc frame.bp
      (m.state.bp - f.argc))
    (hstate : m'.state = advance m.state.pc (.jump frame.returnPc) (leave frame rest m.state))
    (hret : (S.header f).ret = .void ∨
      (S.stage f m.state.pc).regs .rv = some (S.header f).ret) : S.Told m₀ m' := by
  have hlt := hscene.active.bp_lt
  have hsp : m'.state.sp = m.state.bp - f.argc := by
    rw [hstate, ← hscene.active.argc]
    refine Setting.size_shrink_of_le ?_
    show m.state.bp - frame.argc ≤ m.state.sp
    omega
  have hstack {i : Nat} (hi : i < m.state.bp - f.argc) :
      m'.state.stack[i]? = m.state.stack[i]? := by
    rw [hstate]
    rw [← hscene.active.argc] at hi
    exact getElem?_shrink_of_lt hi
  unfold Told
  rw [hsp, show m'.state.frames = rest by rw [hstate]; rfl,
    show m'.state.pc = frame.returnPc by rw [hstate]; rfl,
    show m'.state.bp = frame.bp by rw [hstate]; rfl]
  refine hrest.mono ?_ ?_ ?_
  · intro bp p temp hp hleft
    exact hleft.step hstep (hstack hp)
  · intro i hi
    exact getElem?_stackTypes_congr (hstack hi)
  · intro t ht r ty hr
    -- the caller waits for `RV` only, and only if a result is declared
    obtain ⟨rfl, rfl, hvoid⟩ := ht r ty hr
    have hregs : m'.state.registers = m.state.registers := by
      rw [hstate]
      rfl
    rw [hregs]
    rcases hret with hret | hret
    · exact absurd hret hvoid
    · exact hscene.regs _ _ hret

/-- A step outside of all functions enters one that has no parameters, if it enters one. -/
theorem Told.boots (hS : S.Vetted) {j : Instr} (hframes : m.state.frames = [])
    (hs' : S.Steady m'.state) (hshift : S.Shift j m.state m'.state) : S.Told m₀ m' := by
  unfold Told
  -- outside of all functions the only call is the one in the stub
  cases hshift with
  | stay hne => exact absurd hframes hne
  | call hne => exact absurd hframes hne
  | ret hframes' => cases hframes.symm.trans hframes'
  | @boot g frame _ hframes' hg hargc hpc =>
    have hentry := S.stage_entry g
    have hchain := hs'.chain
    rw [hframes'] at hchain ⊢
    obtain ⟨_, -, hactive, -⟩ := hchain
    rw [hpc]
    refine ⟨g, hg, ⟨⟨le_rfl, ?_⟩, hactive.bp_lt, ?_, ?_⟩, ?_, trivial⟩
    · have hpos := hS.valid.nonempty g hg
      omega
    · intro k temp hk
      rw [hentry.temps] at hk
      cases hk
    · intro k ty hk
      have hlen := hS.params hg
      rw [hargc] at hlen
      rw [List.length_eq_zero_iff.mp hlen] at hk
      cases hk
    · intro r ty hr
      cases hentry.regs hr
  | rest _ hframes' =>
    rw [hframes']
    trivial

/-! ## Steps -/

/-- A step that keeps to its arrays and does not fall off the end of a function that has a result. -/
def Allows (S : TypedSetting) (s : State) : Prop :=
  ∀ f ∈ S.routines, f.Holds s.pc → ∀ j op, S.program.code[s.pc]? = some j → j.decode = .ok op →
    S.Aims f s op ∧
      (op = .ret → (S.header f).ret = .void ∨ s.pc + 1 ≠ f.entry + f.code.size)

/-- A step that stays in its call stays in its routine. -/
theorem holds_of_shift (hS : S.Vetted) (hf : f ∈ S.routines) {j : Instr} {s s' : State}
    (hpc : f.Holds s.pc) (hne : s.frames = frame :: rest) (hframes : s'.frames = s.frames)
    (hshift : S.Shift j s s') : f.Holds s'.pc := by
  cases hshift with
  | stay _ hg hpc' hholds =>
    obtain rfl := hS.valid.unique f hf _ hg _ hpc hpc'
    exact hholds
  | call _ _ _ _ _ _ _ _ hframes' => simp [hframes] at hframes'
  | ret h hframes' => simp [hframes, h] at hframes'
  | boot h => cases hne.symm.trans h
  | rest h => cases hne.symm.trans h

/-- A call goes on behind itself in its routine. -/
theorem holds_succ_of_shift (hS : S.Vetted) (hf : f ∈ S.routines) {j : Instr} {s s' : State}
    {called : CallFrame} (hpc : f.Holds s.pc) (hne : s.frames = frame :: rest)
    (hframes : s'.frames = called :: s.frames) (hshift : S.Shift j s s') : f.Holds (s.pc + 1) := by
  cases hshift with
  | stay _ _ _ _ _ hframes' => simp [hframes'] at hframes
  | call _ hg hpc' hholds =>
    obtain rfl := hS.valid.unique f hf _ hg _ hpc hpc'
    exact hholds
  | ret h hframes' =>
    rw [h, hframes'] at hframes
    have hlen := congrArg List.length hframes
    simp only [List.length_cons] at hlen
    omega
  | boot h => cases hne.symm.trans h
  | rest h => cases hne.symm.trans h

/-- **A step keeps a machine as the stages say.** -/
theorem Told.step (hS : S.Vetted) (himage : m.image.code = S.program.code) (hs : S.Steady m.state)
    (h : S.Told m₀ m) (hrun : Steps n m₀ m) (hok : S.Allows m.state)
    (hstep : m.executeNext = .ok () m') : S.Told m₀ m' := by
  have hrun' := hrun.trans (.one hstep)
  obtain ⟨j, op, s, w, hj, hd, ht, hm'⟩ := executeNext_eq_ok_iff.mp hstep
  have hstate : m'.state = s := by
    rw [hm']
    rfl
  rw [himage] at hj
  obtain ⟨hs', hshift⟩ := hs.step hS.valid hj hd ht
  rw [← hstate] at hs' hshift ht
  cases hframes : m.state.frames with
  | nil => exact Told.boots hS hframes hs' hshift
  | cons frame rest =>
    obtain ⟨f, hf, hscene, hinf, hrest⟩ := h.scene hS hs hframes
    obtain ⟨j', op', hj', hd', hobeys⟩ := obeys_of_checks hS hf hinf.holds
    cases hj.symm.trans hj'
    cases hd.symm.trans hd'
    obtain ⟨haims, hend⟩ := hok f hf hinf.holds j op hj hd
    have hchain := hs'.chain
    cases outcome_of_obeys hS hf hscene hobeys haims ht with
    | stays hstays =>
      have hholds := holds_of_shift hS hf hinf.holds hframes hstays.frames hshift
      rw [hstays.frames, hframes] at hchain
      obtain ⟨_, -, hactive, -⟩ := hchain
      exact Told.stays hS hrun' hstep hf hframes hscene hinf hrest hstays hholds hactive.bp_lt
    | @call _ g result hg hparams hresult hnext hstate =>
      have hframes' : m'.state.frames = ⟨m.state.pc + 1, m.state.bp, g.argc⟩ :: m.state.frames := by
        rw [hstate]
        rfl
      refine Told.enter hS hstep hg hstate ?_ ?_
      · intro k ty hk
        obtain ⟨temp, htemp, hty⟩ := Option.bind_eq_some_iff.mp (hparams k ty hk)
        obtain ⟨v, hv, hhas⟩ := (hinf.temps k temp htemp).has
        have hlt := hinf.bp_lt
        refine ⟨by omega, ?_⟩
        rw [State.stackTypes, Array.getElem?_map, hv]
        exact congrArg some (hhas ty hty)
      · rw [hframes', hframes] at hchain
        obtain ⟨_, -, hcallee, _, -, hcaller, -⟩ := hchain
        -- below the link slot of the function that is entered lie its arguments
        have hlt := hcaller.bp_lt
        rw [← hcallee.argc, show m'.state.bp = m.state.sp by rw [hstate]; rfl] at hlt
        rw [hframes]
        refine ⟨f, hf, hinf.drop hnext.temps ?_ hlt, ?_, hrest⟩
        · exact holds_succ_of_shift hS hf hinf.holds hframes hframes' hshift
        · intro r ty hr
          have hr' := hnext.regs hr
          by_cases hrv : r = .rv
          · subst hrv
            rw [Stage.regs_call_rv] at hr'
            exact ⟨rfl, hresult ty hr'⟩
          · rw [Stage.regs_call_of_ne hrv] at hr'
            cases hr'
    | @ret frame' rest' hframes' hret hstate =>
      cases hframes.symm.trans hframes'
      refine Told.leave hstep hscene hrest hstate ?_
      rcases hret with hvoid | hrv | hlast
      · exact .inl hvoid
      · exact .inr hrv
      · rcases hend rfl with hvoid | hne
        · exact .inl hvoid
        · exact absurd hlast hne

/-- **How a step can fail.** Outside of all functions none does. -/
theorem Told.tolerated (hS : S.Vetted) (himage : m.image.code = S.program.code)
    (hs : S.Steady m.state) (h : S.Told m₀ m) (hok : S.Allows m.state) {j : Instr}
    (hj : m.image.code[m.state.pc]? = some j) {op : Operation} (hd : j.decode = .ok op) {e : Fault}
    (he : transition m.hosts j op m.state m.world = .error e) : S.Tolerated m.state op e := by
  rw [himage] at hj
  cases hframes : m.state.frames with
  | nil =>
    have hchain := hs.chain
    rw [hframes] at hchain
    exact (hchain.1.not_fault hj hd he).elim
  | cons frame rest =>
    obtain ⟨f, hf, hscene, hinf, -⟩ := h.scene hS hs hframes
    obtain ⟨j', op', hj', hd', hobeys⟩ := obeys_of_checks hS hf hinf.holds
    cases hj.symm.trans hj'
    cases hd.symm.trans hd'
    exact tolerated_of_obeys hS hf hscene hobeys (hok f hf hinf.holds j op hj hd).1 he

end Machines

end TypedSetting

end Stepwise
