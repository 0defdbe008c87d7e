import Mathlib
import Stepwise.Proofs.StaticHeight
import Stepwise.Proofs.SymbolMap

/-!
# The chain of calls

A machine remembers the calls in progress in three places: the list of call frames, the base
pointer with the link slots on the stack, and the program counter. In a compiled program they tell
the same story. Every frame was left by a call in the function below it, and execution is in the
function that the innermost call entered; when that function returns, its caller finds all as it
was, apart from the arguments, which are gone, and from values that the function may have written
with an index out of range.

## Main definitions

* `Machine.Turn`: what a step of any code does to the calls in progress
* `Image.Within`: an address where the innermost of the calls in progress can be
* `Machine.Deeper`: a run in which a call stays in progress

## Main results

* `call_stack_coherent`: the calls in progress are those that the code has made, and a return
  undoes its call
-/

namespace Stepwise

open Compiler

namespace Machine

/-! ## What a step does to the calls in progress -/

/-- What a step of any code does to the calls in progress and to the types on the stack: it leaves
the calls as they are, enters a function, or returns from one. -/
inductive Turn (i : Instr) (op : Operation) (s s' : State) : Prop
  | stay : s'.frames = s.frames → s'.bp = s.bp →
    (∀ k < s.sp, k < s'.sp → s'.stackTypes[k]? = s.stackTypes[k]?) → Turn i op s s'
  | enter {target count : Operand} {n t : Int64} {argc : Nat} : op = .call target count →
    (∀ host, target ≠ .host host) → integer i s count = .ok n → argumentCount i n = .ok argc →
    integer i s target = .ok t → jumpTarget t.toInt = .ok s'.pc → argc ≤ s.sp →
    s'.frames = ⟨s.pc + 1, s.bp, argc⟩ :: s.frames → s'.bp = s.sp →
    (∀ k < s.sp, s'.stackTypes[k]? = s.stackTypes[k]?) → Turn i op s s'
  | leave {frame : CallFrame} : op = .ret → s.frames = frame :: s'.frames →
    s'.pc = frame.returnPc → s'.bp = frame.bp → s'.stack = s.stack.shrink (s.bp - frame.argc) →
    Turn i op s s'

variable {σ : Type} {hosts : Table (HostFunction σ)} {i : Instr} {op : Operation} {s s' s₁ : State}
  {w w' : σ}

/-- A step that writes operands. -/
theorem turn_of_alike (h : s.Alike s₁) (hframes : s'.frames = s₁.frames) (hbp : s'.bp = s₁.bp)
    (hstack : s'.stack = s₁.stack) : Turn i op s s' := by
  refine .stay (hframes.trans h.frames) (hbp.trans h.bp) fun k _ _ => ?_
  have htypes : s'.stackTypes = s₁.stackTypes := by rw [State.stackTypes, hstack]; rfl
  rw [htypes, h.stackTypes]

/-- **Every step is one of the three turns.** -/
theorem turn_of_transition (h : transition hosts i op s w = .ok (s', w')) : Turn i op s s' := by
  cases effect_of_transition h with
  | compute _ _ _ hw | change _ _ hw | move _ hw =>
    exact turn_of_alike (State.alike_of_write hw) rfl rfl rfl
  | @load dest v => exact turn_of_alike (State.alike_setRegister s dest v) rfl rfl rfl
  | jump | pass | nop => exact turn_of_alike (.refl s) rfl rfl rfl
  | push => exact .stay rfl rfl fun k hk _ => Setting.getElem?_stackTypes_push s _ hk
  | @pop _ _ s₁ _ hw =>
    have halike := State.alike_of_write hw
    refine .stay halike.frames halike.bp fun k _ hk => ?_
    -- the write happens once the value is off the stack
    have hsp : s₁.sp = s.sp - 1 := by
      rw [← State.size_stackTypes, halike.stackTypes, State.size_stackTypes]
      exact Array.size_pop
    have hk' : k < s₁.sp := hk
    have htypes : s₁.stackTypes[k]? = (dropOne s).stackTypes[k]? := by rw [halike.stackTypes]
    exact htypes.trans (Setting.getElem?_stackTypes_pop s (by omega))
  | @host _ _ _ argc =>
    refine .stay rfl rfl fun k _ hk => ?_
    have hsp : (dropTop argc s).sp = s.sp - argc := Setting.size_shrink_of_le (Nat.sub_le _ _)
    have hk' : k < (dropTop argc s).sp := hk
    exact Setting.getElem?_stackTypes_shrink s (hsp ▸ hk')
  | call hhost hn hargc hle ht hpc =>
    exact .enter rfl hhost hn hargc ht hpc hle rfl rfl
      fun k hk => Setting.getElem?_stackTypes_push s _ hk
  | ret hframes _ => exact .leave rfl hframes rfl rfl rfl

/-- A run in which more than `depth` calls are in progress all the time. -/
inductive Deeper (depth : Nat) : Machine σ → Machine σ → Prop
  | refl {m : Machine σ} : depth < m.state.depth → Deeper depth m m
  | step {m m' m'' : Machine σ} : depth < m.state.depth → executeNext m = .ok () m' →
    Deeper depth m' m'' → Deeper depth m m''

theorem Deeper.lt {depth : Nat} {m m' : Machine σ} (h : Deeper depth m m') :
    depth < m.state.depth := by
  cases h with
  | refl hlt => exact hlt
  | step hlt => exact hlt

/-- A bounded run without a fault is a run. -/
theorem steps_of_runWhile {goOn : Machine σ → Bool} {fuel : Nat} {m : Machine σ}
    (h : (runWhile goOn fuel m).2 = none) : ∃ n, Steps n m (runWhile goOn fuel m).1 := by
  induction fuel generalizing m with
  | zero => exact ⟨0, .refl m⟩
  | succ fuel ih =>
    simp only [runWhile] at h ⊢
    by_cases hgo : goOn m = true
    · simp only [hgo, if_true] at h ⊢
      cases hm : executeNext m with
      | error e m' =>
        rw [hm] at h
        cases h
      | ok u m' =>
        rw [hm] at h
        obtain ⟨n, hrun⟩ := ih h
        exact ⟨n + 1, .step hm hrun⟩
    · simp only [hgo]
      exact ⟨0, .refl m⟩

/-- A bounded run that goes on as long as a call is in progress ends with the return from it. -/
theorem deeper_of_runWhile {depth fuel : Nat} {m m' : Machine σ}
    (h : runWhile (fun m => depth < m.state.depth) fuel m = (m', none))
    (hstart : depth < m.state.depth) (hend : m'.state.depth ≤ depth) :
    ∃ m₁, Deeper depth m m₁ ∧ executeNext m₁ = .ok () m' := by
  induction fuel generalizing m with
  | zero =>
    cases h
    omega
  | succ fuel ih =>
    simp only [runWhile, decide_eq_true hstart, if_true] at h
    split at h
    next m₁ hm =>
      by_cases hlt : depth < m₁.state.depth
      · obtain ⟨m₂, hdeep, hlast⟩ := ih h hlt
        exact ⟨m₂, .step hstart hm hdeep, hlast⟩
      · -- the run stops as soon as the call is over
        have hstop : runWhile (fun m => depth < m.state.depth) fuel m₁ = (m₁, none) := by
          cases fuel <;> simp [runWhile, hlt]
        rw [hstop] at h
        cases h
        exact ⟨m, .refl hstart, hm⟩
    · cases h

end Machine

/-! ## Calls and the functions that they enter -/

/-- The calls in progress are those that the code has made, and `pc` lies where the innermost one
is: in the function that it entered, whose frame has its number of arguments, or among the first
instructions if there is none. -/
def Image.Within (image : Image) : List CallFrame → Nat → Prop
  | [], pc => pc < image.stubSize
  | frame :: callers, pc => ∃ (call : Nat) (i : Instr) (name : String) (e : CodeEntry),
    frame.returnPc = call + 1 ∧ image.code[call]? = some i ∧ i.Enters e.addr frame.argc ∧
      image.symbols.code.get? name = some e ∧ image.symbols.functionAt? pc = some (name, e) ∧
      Within image callers call

/-- Execution may go on elsewhere in the same function. -/
theorem Image.Within.move {image : Image} {frames : List CallFrame} {pc pc' : Nat}
    (h : image.Within frames pc) (hne : frames ≠ [])
    (hpc : ∀ f, image.symbols.functionAt? pc = some f → image.symbols.functionAt? pc' = some f) :
    image.Within frames pc' := by
  cases frames with
  | nil => exact absurd rfl hne
  | cons frame callers =>
    obtain ⟨call, i, name, e, hret, hi, henters, he, hfun, hcallers⟩ := h
    exact ⟨call, i, name, e, hret, hi, henters, he, hpc _ hfun, hcallers⟩

theorem decode_eq_call {j : Instr} {target count : Operand}
    (h : j.decode = .ok (.call target count)) :
    j.op = .call ∧ j.dest = some target ∧ j.src = some count := by
  obtain ⟨op, dest, src, comment, origin⟩ := j
  unfold Instr.decode at h
  simp only at h
  split at h
  case h_18 =>
    cases h
    exact ⟨rfl, rfl, rfl⟩
  all_goals cases h

theorem decode_eq_ret {j : Instr} (h : j.decode = .ok .ret) : j.op = .ret := by
  obtain ⟨op, dest, src, comment, origin⟩ := j
  unfold Instr.decode at h
  simp only at h
  split at h
  case h_19 => rfl
  all_goals cases h

/-- The machine enters the address that a call has, with its number of arguments. -/
theorem Instr.Enters.entered {j : Instr} {addr k argc pc : Nat} {s : State} {target count : Operand}
    {n t : Int64} (h : j.Enters addr k) (hd : j.decode = .ok (.call target count))
    (hn : Machine.integer j s count = .ok n) (hargc : Machine.argumentCount j n = .ok argc)
    (ht : Machine.integer j s target = .ok t) (htarget : Machine.jumpTarget t.toInt = .ok pc) :
    argc = k ∧ pc = addr := by
  obtain ⟨-, hdest, hsrc⟩ := decode_eq_call hd
  obtain ⟨-, ⟨t', hdest', ht'⟩, ⟨n', hsrc', hn'⟩⟩ := h
  obtain rfl : target = .imm (.int t') := Option.some.inj (hdest.symm.trans hdest')
  obtain rfl : count = .imm (.int n') := Option.some.inj (hsrc.symm.trans hsrc')
  rw [Setting.integer_imm] at hn ht
  cases hn
  cases ht
  rw [Setting.argumentCount_of_toInt hn'] at hargc
  rw [ht', Setting.jumpTarget_natCast] at htarget
  cases hargc
  cases htarget
  exact ⟨rfl, rfl⟩

namespace Compiler.Compilation

variable {σ : Type} {hosts : List HostDecl} {program : Program} {image : Image}
  {registered : Table (HostFunction σ)} {j : Instr} {op : Operation} {s s' : State} {w w' : σ}

/-- With no call in progress, execution is at the first instructions or at the end. -/
theorem pc_of_steady (c : Compilation hosts program image) (haddr : image.Addressable)
    (hs : c.setting.Steady s) (hframes : s.frames = []) :
    s.pc < image.stubSize ∨ s.pc = image.code.size := by
  have hchain := hs.chain
  rw [hframes] at hchain
  by_contra hnot
  have hlow : image.stubSize ≤ s.pc ∧ s.pc ≠ image.code.size := by omega
  have hlt : s.pc < image.code.size := by
    rcases hchain.1 with hend | ⟨i, -, hi, -⟩ | ⟨i, -, -, -, hi, -⟩
    · exact absurd hend hlow.2
    · exact (Array.getElem?_eq_some_iff.mp hi).1
    · exact (Array.getElem?_eq_some_iff.mp hi).1
  rw [← c.size_stub] at hlow
  obtain ⟨r, hr, hholds⟩ := c.exists_holds hlow.1 hlt
  exact (c.valid haddr).not_holds_of_atRest hr hchain.1 hholds

/-- Two addresses of one routine lie in the same function. -/
theorem functionAt?_congr (c : Compilation hosts program image) {r : Routine}
    (hr : r ∈ c.setting.routines) {pc pc' : Nat} (hpc : r.Holds pc) (hpc' : r.Holds pc')
    {f : String × CodeEntry} (hf : image.symbols.functionAt? pc = some f) :
    image.symbols.functionAt? pc' = some f := by
  obtain ⟨name, e⟩ := f
  obtain ⟨d, -, -, he, hr', hholds⟩ := c.routine_of_functionAt? hf
  obtain rfl := c.holds_unique hr hr' hpc hholds
  rw [Symbols.functionAt?_eq_some_iff c.tiles] at hf ⊢
  refine ⟨hf.1, ?_⟩
  obtain ⟨hlow, hhigh⟩ := hpc'
  rw [he]
  simp only [CodeEntry.covers, Bool.and_eq_true, decide_eq_true_eq]
  exact ⟨hlow, hhigh⟩

/-- Only a return is the last instruction of its function. -/
theorem functionAt?_succ (c : Compilation hosts program image) {pc : Nat} {i : Instr}
    {f : String × CodeEntry} (hi : image.code[pc]? = some i) (hop : i.op ≠ .ret)
    (hf : image.symbols.functionAt? pc = some f) :
    image.symbols.functionAt? (pc + 1) = some f := by
  obtain ⟨name, e⟩ := f
  rw [Symbols.functionAt?_eq_some_iff c.tiles] at hf ⊢
  obtain ⟨he, hcovers⟩ := hf
  obtain ⟨last, hlast, hret⟩ := c.last_instr he
  simp only [CodeEntry.covers, Bool.and_eq_true, decide_eq_true_eq] at hcovers ⊢
  have hne : pc ≠ e.addr + (e.size - 1) := by
    rintro rfl
    cases hi.symm.trans hlast
    exact hop hret
  exact ⟨he, by omega, by omega⟩

/-- The function that a call enters. -/
theorem within_of_enter (c : Compilation hosts program image) (haddr : image.Addressable)
    {target count : Operand} {n t : Int64} {argc pc pc' : Nat} {callers : List CallFrame}
    (hj : image.code[pc]? = some j) (hd : j.decode = .ok (.call target count))
    (hhost : ∀ host, target ≠ .host host) (hn : Machine.integer j s count = .ok n)
    (hargc : Machine.argumentCount j n = .ok argc) (ht : Machine.integer j s target = .ok t)
    (htarget : Machine.jumpTarget t.toInt = .ok pc') (hcallers : image.Within callers pc) :
    image.Within (⟨pc + 1, s.bp, argc⟩ :: callers) pc' := by
  obtain ⟨hop, hdest, -⟩ := decode_eq_call hd
  obtain ⟨name, e, -, he, henters⟩ := (c.mapped haddr).calls pc j hj hop fun host hh => by
    rw [hdest] at hh
    exact hhost host (Option.some.inj hh)
  obtain ⟨rfl, rfl⟩ := henters.entered hd hn hargc ht htarget
  refine ⟨pc, j, name, e, rfl, hj, henters, he, ?_, hcallers⟩
  have hpos := c.tiles.size_pos (Table.get?_eq_some_iff.mp he)
  rw [Symbols.functionAt?_eq_some_iff c.tiles]
  refine ⟨he, ?_⟩
  simpa [CodeEntry.covers] using hpos

/-- **A step keeps the calls in progress those that the code has made.** -/
theorem within_step (c : Compilation hosts program image) (haddr : image.Addressable)
    (hs : c.setting.Steady s) (hw : s.frames ≠ [] → image.Within s.frames s.pc)
    (hj : image.code[s.pc]? = some j) (hd : j.decode = .ok op)
    (ht : Machine.transition registered j op s w = .ok (s', w')) (hne : s'.frames ≠ []) :
    image.Within s'.frames s'.pc := by
  obtain ⟨-, hshift⟩ := hs.step (c.valid haddr) hj hd ht
  -- a call that is entered is the one that the stub or the running function makes
  cases Machine.turn_of_transition ht with
  | stay hframes _ _ =>
    rw [hframes] at hne ⊢
    cases hshift with
    | @stay r _ hr hpc hpc' _ _ =>
      exact (hw hne).move hne fun f hf => c.functionAt?_congr hr hpc hpc' hf
    | call _ _ _ _ _ _ _ _ hframes' =>
      rw [hframes] at hframes'
      simp at hframes'
    | ret hframes' hrest _ =>
      rw [hframes, hframes'] at hrest
      simp at hrest
    | boot hnil => exact absurd hnil hne
    | rest hnil _ => exact absurd hnil hne
  | enter hop hhost hn hargc ht' htarget _ hframes _ _ =>
    subst hop
    rw [hframes]
    refine c.within_of_enter haddr hj hd hhost hn hargc ht' htarget ?_
    by_cases hnil : s.frames = []
    · have hlt := (Array.getElem?_eq_some_iff.mp hj).1
      rw [hnil]
      rcases c.pc_of_steady haddr hs hnil with hstub | hend
      · exact hstub
      · omega
    · exact hw hnil
  | @leave frame _ hframes hpc _ _ =>
    have hwithin := hw (by rw [hframes]; simp)
    rw [hframes] at hwithin
    obtain ⟨call, i, name, e, hret, hi, henters, -, -, hcallers⟩ := hwithin
    rw [hpc, hret]
    exact hcallers.move hne fun f hf => c.functionAt?_succ hi (by simp [henters.op]) hf

/-- The calls in progress in every state that a compiled program reaches. -/
theorem within_of_steps (c : Compilation hosts program image) (haddr : image.Addressable)
    {m₀ m : Machine σ} {n : Nat} (hstart : m₀.Starts image) (hrun : Machine.Steps n m₀ m) :
    m.image = image ∧ c.setting.Steady m.state ∧
      (m.state.frames ≠ [] → image.Within m.state.frames m.state.pc) := by
  refine hrun.invariant (P := fun m => m.image = image ∧ c.setting.Steady m.state ∧
    (m.state.frames ≠ [] → image.Within m.state.frames m.state.pc)) ?_ ?_
  · rw [hstart.1, hstart.2]
    exact ⟨rfl, c.steady_initial haddr, fun hne => absurd rfl hne⟩
  · rintro a b ⟨himage, hs, hw⟩ hstep
    obtain ⟨i, op, s, w, hi, hd, ht, rfl⟩ := Machine.executeNext_eq_ok_iff.mp hstep
    rw [himage] at hi
    exact ⟨himage, (hs.step (c.valid haddr) hi hd ht).1,
      fun hne => c.within_step haddr hs hw hi hd ht hne⟩

end Compiler.Compilation

/-! ## A return undoes its call -/

/-- The link slot of the call below some calls in progress, the innermost of which has its own at
`bp`. -/
def linkBelow : List CallFrame → Nat → Nat
  | [], bp => bp
  | frame :: rest, _ => linkBelow rest frame.bp

theorem Setting.Coherent.linkBelow_lt {S : Setting} {types : Array Ty} {above below : List CallFrame}
    {frame : CallFrame} {pc bp sp : Nat}
    (h : S.Coherent types (above ++ frame :: below) pc bp sp) : linkBelow above bp < sp := by
  induction above generalizing pc bp sp with
  | nil =>
    obtain ⟨f, -, ha, -⟩ := h
    exact ha.bp_lt
  | cons first above ih =>
    obtain ⟨f, -, ha, hrest⟩ := h
    have hlt := ih hrest
    have hbp := ha.bp_lt
    rw [linkBelow]
    omega

/-- The link slot of every call in progress is below the top of the stack. -/
theorem Setting.Steady.linkBelow_lt {S : Setting} {s : State} {above below : List CallFrame}
    {frame : CallFrame} (hs : S.Steady s) (h : s.frames = above ++ frame :: below) :
    linkBelow above s.bp < s.sp := by
  have hchain := hs.chain
  rw [h] at hchain
  exact hchain.linkBelow_lt

/-- A state inside a call that was made in state `s`: its frame is still there with the callers
below it, its link slot is where the stack ended, and what was on the stack has its type. -/
structure Inside (s : State) (argc : Nat) (s' : State) : Prop where
  frames : ∃ above, s'.frames = above ++ ⟨s.pc + 1, s.bp, argc⟩ :: s.frames ∧
    linkBelow above s'.bp = s.sp
  types : ∀ k < s.sp, s'.stackTypes[k]? = s.stackTypes[k]?

namespace Inside

variable {S : Setting} {σ : Type} {registered : Table (HostFunction σ)} {j : Instr}
  {op : Operation} {s s₁ s₂ : State} {argc : Nat} {w w' : σ}

/-- **A step inside a call stays inside it**, as long as it does not return from it. -/
theorem step (h : Inside s argc s₁) (hs₁ : S.Steady s₁) (hs₂ : S.Steady s₂)
    (hdeep : s.depth < s₂.depth) (ht : Machine.transition registered j op s₁ w = .ok (s₂, w')) :
    Inside s argc s₂ := by
  obtain ⟨above, hframes, hlink⟩ := h.frames
  have hsp : s.sp < s₁.sp := hlink ▸ hs₁.linkBelow_lt hframes
  cases Machine.turn_of_transition ht with
  | stay hframes' hbp htypes =>
    rw [← hframes'] at hframes
    rw [← hbp] at hlink
    have hsp' : s.sp < s₂.sp := hlink ▸ hs₂.linkBelow_lt hframes
    refine ⟨⟨above, hframes, hlink⟩, fun k hk => ?_⟩
    rw [htypes k (by omega) (by omega), h.types k hk]
  | @enter _ _ _ _ argc' _ _ _ _ _ _ _ hframes' hbp htypes =>
    refine ⟨⟨⟨s₁.pc + 1, s₁.bp, argc'⟩ :: above, ?_, ?_⟩, fun k hk => ?_⟩
    · rw [hframes', hframes, List.cons_append]
    · rw [linkBelow, hlink]
    · rw [htypes k (by omega), h.types k hk]
  | @leave frame _ hframes' _ hbp hstack =>
    rw [hframes'] at hframes
    cases above with
    | nil =>
      -- this would be the return from the call itself
      have hsame : s₂.frames = s.frames := (List.cons.inj hframes).2
      rw [State.depth, State.depth, hsame] at hdeep
      exact absurd hdeep (lt_irrefl _)
    | cons first above =>
      obtain ⟨rfl, hrest⟩ := List.cons.inj hframes
      rw [linkBelow, ← hbp] at hlink
      have hsp' : s.sp < s₂.sp := hlink ▸ hs₂.linkBelow_lt hrest
      refine ⟨⟨above, hrest, hlink⟩, fun k hk => ?_⟩
      have hle : s₂.sp ≤ s₁.bp - frame.argc := by
        rw [State.sp, hstack, Array.size_shrink]
        omega
      rw [State.stackTypes, hstack, Setting.getElem?_stackTypes_shrink s₁ (by omega), h.types k hk]

/-- **The return from a call undoes it**, apart from the arguments. -/
theorem undone (h : Inside s argc s₁) (hs₁ : S.Steady s₁) (hargc : argc ≤ s.sp)
    (hdepth : s₂.depth = s.depth) (ht : Machine.transition registered j op s₁ w = .ok (s₂, w')) :
    op = .ret ∧ s₂.pc = s.pc + 1 ∧ s₂.bp = s.bp ∧ s₂.frames = s.frames ∧ s₂.sp + argc = s.sp ∧
      ∀ k < s₂.sp, s₂.stackTypes[k]? = s.stackTypes[k]? := by
  obtain ⟨above, hframes, hlink⟩ := h.frames
  have hlt : s.sp < s₁.sp := hlink ▸ hs₁.linkBelow_lt hframes
  have hlen : s₁.depth = above.length + (s.depth + 1) := by
    rw [State.depth, hframes, List.length_append, List.length_cons]
    rfl
  -- the depth falls to that of the caller only by the return of this call
  cases Machine.turn_of_transition ht with
  | stay hframes' _ _ =>
    have hsame : s₂.depth = s₁.depth := congrArg List.length hframes'
    omega
  | enter _ _ _ _ _ _ _ hframes' _ _ =>
    have hmore : s₂.depth = s₁.depth + 1 := congrArg List.length hframes'
    omega
  | @leave frame hop hframes' hpc hbp hstack =>
    have hless : s₁.depth = s₂.depth + 1 := congrArg List.length hframes'
    obtain rfl : above = [] := List.length_eq_zero_iff.mp (by omega)
    rw [hframes', List.nil_append] at hframes
    obtain ⟨rfl, hrest⟩ := List.cons.inj hframes
    have hbp' : s₁.bp = s.sp := hlink
    have hsize : s₂.sp = s.sp - argc := by
      rw [State.sp, hstack, hbp']
      exact Setting.size_shrink_of_le (show s.sp - argc ≤ s₁.sp by omega)
    refine ⟨hop, hpc, hbp, hrest, by omega, fun k hk => ?_⟩
    have hbelow : k < s₁.bp - argc := by omega
    rw [State.stackTypes, hstack, Setting.getElem?_stackTypes_shrink s₁ hbelow, h.types k (by omega)]

end Inside

/-- A run inside a call ends inside it. -/
theorem inside_of_deeper {hosts : List HostDecl} {program : Program} {image : Image} {σ : Type}
    (c : Compilation hosts program image) (haddr : image.Addressable) {s : State} {argc : Nat}
    {m m' : Machine σ} (hrun : Machine.Deeper s.depth m m') (himage : m.image = image)
    (hs : c.setting.Steady m.state) (hin : Inside s argc m.state) :
    m'.image = image ∧ c.setting.Steady m'.state ∧ Inside s argc m'.state := by
  induction hrun with
  | refl => exact ⟨himage, hs, hin⟩
  | step _ hstep hrest ih =>
    obtain ⟨i, op, s', w, hi, hd, ht, rfl⟩ := Machine.executeNext_eq_ok_iff.mp hstep
    rw [himage] at hi
    have hs' := (hs.step (c.valid haddr) hi hd ht).1
    exact ih himage hs' (hin.step hs hs' hrest.lt ht)

/-- **The call stack is coherent.** In every state that a compiled program reaches, with any host,
no call is in progress exactly at the first instructions and at the end; otherwise the calls in
progress are those that the code has made, each from the function that the next one entered and the
outermost one from the first instructions. And when the function that a call entered returns, the
machine goes on behind the call with the base pointer, the call frames and the types on the stack
that it had before it, without the arguments, whatever the function has written. -/
theorem call_stack_coherent {hosts : List HostDecl} {program : Program} {image : Image}
    (hcompile : compile hosts program = .ok image) (haddr : image.Addressable) {σ : Type}
    {m₀ m : Machine σ} {n : Nat} (hstart : m₀.Starts image) (hrun : Machine.Steps n m₀ m) :
    (m.state.frames = [] ↔ m.state.pc < image.stubSize ∨ m.state.pc = image.code.size) ∧
    (m.state.frames ≠ [] → image.Within m.state.frames m.state.pc) ∧
    ∀ (i : Instr) (m₁ m₂ m₃ : Machine σ), image.code[m.state.pc]? = some i → i.op = .call →
      (∀ host, i.dest ≠ some (.host host)) → m.executeNext = .ok () m₁ →
      Machine.Deeper m.state.depth m₁ m₂ → m₂.executeNext = .ok () m₃ →
      m₃.state.depth = m.state.depth →
      (∃ j, image.code[m₂.state.pc]? = some j ∧ j.op = .ret) ∧
      m₃.state.pc = m.state.pc + 1 ∧ m₃.state.bp = m.state.bp ∧ m₃.state.frames = m.state.frames ∧
      (∃ addr argc, i.Enters addr argc ∧ m₃.state.sp + argc = m.state.sp) ∧
      ∀ k < m₃.state.sp, m₃.state.stackTypes[k]? = m.state.stackTypes[k]? := by
  obtain ⟨c, -⟩ := exists_compilation hcompile
  obtain ⟨himage, hs, hwithin⟩ := c.within_of_steps haddr hstart hrun
  refine ⟨⟨fun hnil => c.pc_of_steady haddr hs hnil, fun hpc => ?_⟩, hwithin, ?_⟩
  · -- an address of the innermost function is not one of those
    by_contra hne
    have hout := (c.mapped haddr).outside m.state.pc (by omega)
    cases hframes : m.state.frames with
    | nil => exact hne hframes
    | cons frame callers =>
      have hw := hwithin hne
      rw [hframes] at hw
      obtain ⟨_, _, name, e, -, -, -, -, hfun, -⟩ := hw
      cases hout.symm.trans hfun
  · intro i m₁ m₂ m₃ hi hop hhost hcall hdeep hret hdepth
    obtain ⟨i', op, s₁, w, hi', hd, ht, rfl⟩ := Machine.executeNext_eq_ok_iff.mp hcall
    rw [himage] at hi'
    cases hi.symm.trans hi'
    have hs₁ := (hs.step (c.valid haddr) hi hd ht).1
    have hlt : m.state.depth < s₁.depth := hdeep.lt
    cases Machine.turn_of_transition ht with
    | stay hframes _ _ =>
      have hsame : s₁.depth = m.state.depth := congrArg List.length hframes
      omega
    | leave _ hframes _ _ _ =>
      have hless : m.state.depth = s₁.depth + 1 := congrArg List.length hframes
      omega
    | enter hop' _ hn hargc ht' htarget hle hframes hbp htypes =>
      subst hop'
      obtain ⟨name, e, -, -, henters⟩ := (c.mapped haddr).calls _ i hi hop hhost
      obtain ⟨rfl, -⟩ := henters.entered hd hn hargc ht' htarget
      obtain ⟨himage₂, hs₂, hin⟩ := inside_of_deeper c haddr hdeep himage hs₁
        ⟨⟨[], hframes, hbp⟩, htypes⟩
      obtain ⟨j, op₂, s₃, w₃, hj, hd₂, ht₂, rfl⟩ := Machine.executeNext_eq_ok_iff.mp hret
      rw [himage₂] at hj
      obtain ⟨rfl, hpc, hbp₃, hframes₃, hsp, htypes₃⟩ := hin.undone hs₂ hle hdepth ht₂
      exact ⟨⟨j, hj, decode_eq_ret hd₂⟩, hpc, hbp₃, hframes₃, ⟨_, _, henters, hsp⟩, htypes₃⟩

/-- A program whose function writes into the frame of its caller. -/
def wildWrite : Program :=
  ⟨[Build.func "poke" [Build.param .int "k"] .void
      [Build.array .int "a" 1,
        Build.expr (Build.assign (Build.member "a" (Build.ident "k")) (Build.lit (.int 9)))],
    Build.func "main" [] .void
      [Build.var .int "x" (some (Build.lit (.int 5))),
        Build.expr (Build.call "poke" [Build.lit (.int (-3))])]]⟩

/-- The machine before the call of `poke`. -/
def beforePoke : Machine Unit :=
  (Machine.runWhile (fun m => m.state.pc != 9) 10 (.load (imageOf [] wildWrite) ())).1

/-- The variable of the caller has another value after the call, but the same type, and all else is
as it was. -/
theorem call_stack_coherent_wildWrite :
    ∃ (n : Nat) (m₁ m₂ m₃ : Machine Unit),
      Machine.Steps n (.load (imageOf [] wildWrite) ()) beforePoke ∧
      beforePoke.executeNext = .ok () m₁ ∧ Machine.Deeper beforePoke.state.depth m₁ m₂ ∧
      m₂.executeNext = .ok () m₃ ∧ beforePoke.state.stack[1]? = some (.int 5) ∧
      m₃.state.stack[1]? = some (.int 9) ∧ m₃.state.pc = beforePoke.state.pc + 1 ∧
      m₃.state.bp = beforePoke.state.bp ∧ m₃.state.frames = beforePoke.state.frames ∧
      ∀ k < m₃.state.sp, m₃.state.stackTypes[k]? = beforePoke.state.stackTypes[k]? := by
  have hcompile : compile [] wildWrite = .ok (imageOf [] wildWrite) :=
    compile_eq_ok_imageOf (by decide +kernel)
  have haddr : (imageOf [] wildWrite).Addressable := by
    unfold Image.Addressable
    decide +kernel
  have hbefore : (Machine.runWhile (fun m => m.state.pc != 9) 10
      (.load (imageOf [] wildWrite) ())).2 = none := by decide +kernel
  obtain ⟨n, hrun⟩ := Machine.steps_of_runWhile hbefore
  change Machine.Steps n _ beforePoke at hrun
  have hcode : (imageOf [] wildWrite).code[beforePoke.state.pc]? =
      some ⟨.call, some (.imm (.int 2)), some (.imm (.int 1)), some "poke", some .unknown⟩ := by
    decide +kernel
  have hafter : (match beforePoke.executeNext with
      | .ok _ m => decide (beforePoke.state.depth < m.state.depth ∧
          (Machine.runWhile (fun m => beforePoke.state.depth < m.state.depth) 10 m).2 = none ∧
          (Machine.runWhile (fun m => beforePoke.state.depth < m.state.depth) 10 m).1.state.depth =
            beforePoke.state.depth ∧
          (Machine.runWhile (fun m => beforePoke.state.depth < m.state.depth) 10
            m).1.state.stack[1]? = some (.int 9))
      | .error _ _ => false) = true := by decide +kernel
  have hvalue₀ : beforePoke.state.stack[1]? = some (.int 5) := by decide +kernel
  generalize imageOf [] wildWrite = image at hcompile haddr hrun hcode ⊢
  generalize beforePoke = m at hrun hcode hafter hvalue₀ ⊢
  cases hcall : m.executeNext with
  | error e m' =>
    rw [hcall] at hafter
    cases hafter
  | ok u m₁ =>
    rw [hcall] at hafter
    obtain ⟨hlt, hfault, hdepth, hvalue⟩ := of_decide_eq_true hafter
    obtain ⟨m₂, hdeep, hlast⟩ :=
      Machine.deeper_of_runWhile (Prod.ext rfl hfault) hlt hdepth.le
    obtain ⟨-, -, hreturn⟩ := call_stack_coherent hcompile haddr ⟨rfl, rfl⟩ hrun
    obtain ⟨-, hpc, hbp, hframes, -, htypes⟩ := hreturn _ m₁ m₂ _ hcode rfl (by simp) hcall hdeep
      hlast hdepth
    exact ⟨n, m₁, m₂, _, hrun, rfl, hdeep, hlast, hvalue₀, hvalue, hpc, hbp, hframes,
      htypes⟩

end Stepwise
