import Mathlib
import Stepwise.Proofs.StaticHeight

/-!
# Typed memory

In a running program every variable holds a value of its type: every global variable and every
scratch cell from the start, and every local variable from the reservation of its slot on, in the
innermost call and in all callers. This does not depend on what the program computes, where its
indices point, or what the host returns.

When a slot is reserved is a matter of the run. So a run is recorded: each call in progress has the
list of the addresses that it has executed.

## Main definitions

* `Machine.Traced`: runs with the addresses that each call in progress has executed
* `State.activations`: the calls in progress, with where they go on and where their frames are
* `Image.Reserved`: the reservation of a slot is among executed addresses

## Main results

* `typed_memory`: in every state that is reached, variables hold values of their types
-/

namespace Stepwise

/-! ## Recorded runs -/

/-- The addresses that each call in progress has executed, after one more step. A call starts with
no address, and one that returns is forgotten. -/
def State.record (s s' : State) : List (List Nat) → List (List Nat)
  | [] => if s.depth < s'.depth then [[]] else []
  | log :: rest =>
    if s.depth < s'.depth then [] :: (s.pc :: log) :: rest
    else if s'.depth < s.depth then rest
    else (s.pc :: log) :: rest

section Record

variable {s s' : State} {frame : CallFrame} {log : List Nat} {logs : List (List Nat)}

theorem State.record_of_same (h : s'.frames = s.frames) :
    s.record s' (log :: logs) = (s.pc :: log) :: logs := by
  simp [record, depth, h]

theorem State.record_of_call (h : s'.frames = frame :: s.frames) :
    s.record s' (log :: logs) = [] :: (s.pc :: log) :: logs := by
  simp [record, depth, h]

theorem State.record_of_return (h : s.frames = frame :: s'.frames) :
    s.record s' (log :: logs) = logs := by
  simp [record, depth, h]

theorem State.record_of_boot (h : s.frames = []) (h' : s'.frames = [frame]) :
    s.record s' [] = [[]] := by
  simp [record, depth, h, h']

theorem State.record_of_rest (h : s.frames = []) (h' : s'.frames = []) : s.record s' [] = [] := by
  simp [record, depth, h, h']

end Record

/-- A run from a machine with no call in progress, with the addresses that each call in progress has
executed. -/
inductive Machine.Traced {σ : Type} (m₀ : Machine σ) : Machine σ → List (List Nat) → Prop
  | start : Traced m₀ m₀ []
  | step {m m' : Machine σ} {logs : List (List Nat)} : Traced m₀ m logs →
    executeNext m = .ok () m' → Traced m₀ m' (m.state.record m'.state logs)

theorem Machine.Traced.steps {σ : Type} {m₀ m : Machine σ} {logs : List (List Nat)}
    (h : Traced m₀ m logs) : ∃ n, Steps n m₀ m := by
  induction h with
  | start => exact ⟨0, .refl _⟩
  | step _ hstep ih =>
    obtain ⟨n, hn⟩ := ih
    exact ⟨n + 1, hn.trans (.one hstep)⟩

/-- Every run can be recorded. -/
theorem Machine.Steps.traced {σ : Type} {m₀ m : Machine σ} {n : Nat} (h : Steps n m₀ m) :
    ∃ logs, Traced m₀ m logs := by
  have hfrom : ∀ {a : Machine σ} {logs : List (List Nat)}, Traced m₀ a logs → Steps n a m →
      ∃ logs, Traced m₀ m logs := by
    clear h
    induction n with
    | zero =>
      intro a logs ha h
      cases h
      exact ⟨logs, ha⟩
    | succ n ih =>
      intro a logs ha h
      cases h with
      | step hstep hrest => exact ih (ha.step hstep) hrest
  exact hfrom .start h

/-- A call in progress: where it goes on, where its link slot is, and what it has executed. -/
structure Activation where
  pc : Nat
  bp : Nat
  log : List Nat

/-- The calls in progress, from the innermost one outward. -/
def activationsFrom : List CallFrame → Nat → Nat → List (List Nat) → List Activation
  | [], _, _, _ => []
  | frame :: rest, pc, bp, logs =>
    ⟨pc, bp, logs.headD []⟩ :: activationsFrom rest frame.returnPc frame.bp logs.tail

@[inherit_doc activationsFrom]
def State.activations (s : State) (logs : List (List Nat)) : List Activation :=
  activationsFrom s.frames s.pc s.bp logs

/-- The reservation of slot `k` of a function that starts at `start` is among executed addresses. -/
def Image.Reserved (image : Image) (start : Nat) (log : List Nat) (k : Nat) : Prop :=
  ∃ a ∈ log, ∃ i, image.code[a]? = some i ∧ i.reserves = true ∧
    k = 1 + image.reservedBefore start a

namespace Setting

/-! ## What has been executed is reserved -/

/-- The reservations that each call in progress has executed lie before the address where it goes
on. -/
def Covered (S : Setting) : List CallFrame → Nat → List (List Nat) → Prop
  | [], _, logs => logs = []
  | frame :: rest, pc, logs => ∃ log more, logs = log :: more ∧
    (∀ f ∈ S.routines, f.Holds pc → ∀ a ∈ log, f.Holds a ∧
      ∀ j, S.program.code[a]? = some j → j.reserves = true → f.slots a < f.slots pc) ∧
    Covered S rest frame.returnPc more

/-- **A step keeps the record in order.** -/
theorem Covered.step {S : Setting} (hv : S.Valid) {j : Instr} {s s' : State}
    {logs : List (List Nat)} (hc : S.Covered s.frames s.pc logs)
    (hj : S.program.code[s.pc]? = some j) (hshift : S.Shift j s s') :
    S.Covered s'.frames s'.pc (s.record s' logs) := by
  cases hshift with
  | @stay f hne hf hpc hpc' hslots hframes =>
    rw [hframes]
    cases hs : s.frames with
    | nil => exact absurd hs hne
    | cons frame rest =>
      rw [hs] at hc
      obtain ⟨log, more, rfl, hlog, hrest⟩ := hc
      rw [State.record_of_same hframes]
      refine ⟨_, _, rfl, fun g hg hgpc a ha => ?_, hrest⟩
      obtain rfl := hv.unique f hf g hg _ hpc' hgpc
      rcases List.mem_cons.mp ha with rfl | ha
      · refine ⟨hpc, fun j' hj' hres => ?_⟩
        cases hj.symm.trans hj'
        rw [hslots, hres]
        exact Nat.lt_succ_self _
      · obtain ⟨hholds, hlt⟩ := hlog f hf hpc a ha
        refine ⟨hholds, fun j' hj' hres => ?_⟩
        have hlt' := hlt j' hj' hres
        omega
  | @call f g hne hf hpc hpc' hslots hres hg hentry hframes =>
    rw [hframes]
    cases hs : s.frames with
    | nil => exact absurd hs hne
    | cons frame rest =>
      rw [hs] at hc
      obtain ⟨log, more, rfl, hlog, hrest⟩ := hc
      rw [State.record_of_call hframes]
      refine ⟨_, _, rfl, by simp, _, _, rfl, fun h hh hhpc a ha => ?_, hrest⟩
      obtain rfl := hv.unique f hf h hh _ hpc' hhpc
      rcases List.mem_cons.mp ha with rfl | ha
      · refine ⟨hpc, fun j' hj' hres' => ?_⟩
        cases hj.symm.trans hj'
        cases hres.symm.trans hres'
      · rw [hslots]
        exact hlog f hf hpc a ha
  | @ret frame rest hframes hframes' hpc =>
    subst hframes'
    rw [hframes] at hc
    obtain ⟨log, more, rfl, -, hrest⟩ := hc
    rw [State.record_of_return hframes, hpc]
    exact hrest
  | @boot g frame hframes hframes' hg _ hpc =>
    rw [hframes] at hc
    obtain rfl : logs = [] := hc
    rw [State.record_of_boot hframes hframes', hframes']
    exact ⟨_, _, rfl, by simp, rfl⟩
  | rest hframes hframes' =>
    rw [hframes] at hc
    obtain rfl : logs = [] := hc
    rw [State.record_of_rest hframes hframes', hframes']
    rfl

/-- In every call in progress, the slots whose reservations were executed hold values of the types of
their variables. -/
theorem typed_of_coherent {S : Setting} {types : Array Ty} {frames : List CallFrame}
    {pc bp sp : Nat} {logs : List (List Nat)} (hcoh : S.Coherent types frames pc bp sp)
    (hcov : S.Covered frames pc logs) {act : Activation}
    (hact : act ∈ activationsFrom frames pc bp logs) :
    ∃ f ∈ S.routines, f.Holds act.pc ∧ ∀ a ∈ act.log, f.Holds a ∧
      ∀ j, S.program.code[a]? = some j → j.reserves = true →
        ∃ ty, types[act.bp + f.slots a]? = some ty ∧ f.frame.Owns (f.slots a) ty := by
  induction frames generalizing pc bp sp logs with
  | nil => cases hact
  | cons frame rest ih =>
    obtain ⟨f, hf, ha, hrest⟩ := hcoh
    obtain ⟨log, more, rfl, hlog, hmore⟩ := hcov
    rcases List.mem_cons.mp hact with rfl | hact
    · refine ⟨f, hf, ha.holds, fun a hmem => ?_⟩
      obtain ⟨hholds, hlt⟩ := hlog f hf ha.holds a hmem
      exact ⟨hholds, fun j hj hres => ha.typed _ (slots_pos f a) (hlt j hj hres)⟩
    · exact ih hrest hmore hact

theorem length_of_covered {S : Setting} {frames : List CallFrame} {pc : Nat}
    {logs : List (List Nat)} (h : S.Covered frames pc logs) : logs.length = frames.length := by
  induction frames generalizing pc logs with
  | nil =>
    obtain rfl : logs = [] := h
    rfl
  | cons frame rest ih =>
    obtain ⟨log, more, rfl, -, hmore⟩ := h
    rw [List.length_cons, List.length_cons, ih hmore]

end Setting

/-- The global slots from an offset on hold values of a type. -/
def State.GlobalsHold (s : State) (offset span : Nat) (ty : Ty) : Prop :=
  ∀ k < span, ∃ v, s.globals[offset + k]? = some v ∧ v.ty = ty

/-- Values of the right types that are in the first global region are there in every state with the
same types. -/
theorem globalsHold_of_block {s : State} {g : GlobalLayout} {offset span : Nat} {ty : Ty}
    (hs : s.globalTypes = g.values.map Value.ty) (hb : g.Block offset span ty) :
    s.GlobalsHold offset span ty := by
  intro k hk
  obtain ⟨w, hw, hty⟩ := hb k hk
  have htypes := congrArg (·[offset + k]?) hs
  simp only [State.globalTypes, Array.getElem?_map, hw, Option.map_some] at htypes
  obtain ⟨v, hv, hvw⟩ := Option.map_eq_some_iff.mp htypes
  exact ⟨v, hv, hvw.trans hty⟩

namespace Compiler.Compilation

variable {σ : Type} {hosts : List HostDecl} {program : Program} {image : Image}
  (c : Compilation hosts program image)

/-- Every recorded run of a compiled program stays coherent, and its record in order. -/
theorem covered_of_traced (hsize : image.Addressable) {m₀ m : Machine σ} {logs : List (List Nat)}
    (hstart : m₀.Starts image) (hrun : m₀.Traced m logs) :
    m.image = image ∧ c.setting.Steady m.state ∧
      c.setting.Covered m.state.frames m.state.pc logs := by
  induction hrun with
  | start =>
    rw [hstart.1, hstart.2]
    exact ⟨rfl, c.steady_initial hsize, rfl⟩
  | step _ hstep ih =>
    obtain ⟨himage, hs, hc⟩ := ih
    obtain ⟨i, op, s, w, hi, hd, ht, rfl⟩ := Machine.executeNext_eq_ok_iff.mp hstep
    rw [himage] at hi
    obtain ⟨hs', hshift⟩ := hs.step (c.valid hsize) hi hd ht
    exact ⟨himage, hs', hc.step (c.valid hsize) hi hshift⟩

/-- A variable of a call in progress holds a value of its type once its slot is reserved. -/
theorem typed_of_reserved (hsize : image.Addressable) {s : State} {logs : List (List Nat)}
    (hs : c.setting.Steady s) (hc : c.setting.Covered s.frames s.pc logs) {act : Activation}
    (hact : act ∈ s.activations logs) :
    ∃ name e, image.symbols.functionAt? act.pc = some (name, e) ∧
      ∀ key entry, e.frame.get? key = some entry → ∀ k : Nat, entry.Covers k →
        image.Reserved e.addr act.log k → ∃ v, s.stack[act.bp + k]? = some v ∧ v.ty = entry.ty := by
  obtain ⟨f, hf, hpc, hlog⟩ := Setting.typed_of_coherent hs.chain hc hact
  obtain ⟨d, hd, hat, hfd⟩ := c.functionAt?_of_holds hf hpc
  refine ⟨_, _, hat, fun key entry hkey k hcovers hres => ?_⟩
  obtain ⟨a, ha, i, hi, hires, rfl⟩ := hres
  obtain ⟨hholds, htyped⟩ := hlog a ha
  obtain ⟨ty, hty, key', entry', hkey', hcovers', rfl⟩ := htyped i hi hires
  have hslots : f.slots a = 1 + image.reservedBefore f.entry a := (c.counts_eq hsize hf hholds).2
  rw [hslots] at hty hcovers'
  have hframe : f.frame = d.finish.frame := by rw [hfd]; rfl
  rw [hframe] at hkey'
  -- two variables that cover one slot are the same
  obtain rfl := (c.compiled hd).frame_sound.separate hkey' hkey hcovers' hcovers
  cases hkey.symm.trans hkey'
  rw [State.stackTypes, Array.getElem?_map] at hty
  exact Option.map_eq_some_iff.mp hty

end Compiler.Compilation

/-- **Memory is typed.** In every state that a compiled program reaches, with any host, the global
region has its first length, every global variable and every scratch cell holds values of its type,
and so does every local variable of every call in progress whose slot was reserved in that call. -/
theorem typed_memory {σ : Type} {hosts : List HostDecl} {program : Program} {image : Image}
    (hcompile : compile hosts program = .ok image) (haddr : image.Addressable)
    {m₀ m : Machine σ} {logs : List (List Nat)} (hstart : m₀.Starts image)
    (hrun : m₀.Traced m logs) :
    m.state.globals.size = image.globals.size ∧
    (∃ p, Compiler.translate hosts program = .ok p ∧
      (∀ decl, .declare decl ∈ program.statements → ∀ dr ∈ decl.declarators, ∃ v offset,
        p.scope.get? dr.name = some (.variable v) ∧ v.slot = .global offset ∧
        m.state.GlobalsHold offset (decl.span dr) decl.ty) ∧
      ∀ ty offset, (ty, offset) ∈ p.globals.casts → m.state.GlobalsHold offset 1 ty) ∧
    (∀ name e, image.symbols.data.get? name = some e →
      m.state.GlobalsHold e.offset e.span e.ty) ∧
    logs.length = m.state.depth ∧
    ∀ act ∈ m.state.activations logs, ∃ name e,
      image.symbols.functionAt? act.pc = some (name, e) ∧
      ∀ key entry, e.frame.get? key = some entry → ∀ k : Nat, entry.Covers k →
        image.Reserved e.addr act.log k →
          ∃ v, m.state.stack[act.bp + k]? = some v ∧ v.ty = entry.ty := by
  obtain ⟨c, hp⟩ := Compiler.exists_compilation hcompile
  obtain ⟨-, hs, hc⟩ := c.covered_of_traced haddr hstart hrun
  refine ⟨?_, ⟨c.progress, hp, fun decl hdecl dr hdr => ?_, fun ty offset hcast => ?_⟩,
    fun name e he => ?_, Setting.length_of_covered hc, fun act hact =>
      c.typed_of_reserved haddr hs hc hact⟩
  · have hsize := congrArg Array.size hs.globals
    rw [State.globalTypes, Array.size_map, Array.size_map] at hsize
    rw [hsize, c.globals]
    rfl
  · obtain ⟨v, hv, hty, hspan⟩ := c.translated.declared c.sound_start hdecl hdr
    obtain ⟨offset, hslot, -, hblock⟩ := c.sound.declared hv
    rw [hty, hspan] at hblock
    exact ⟨v, offset, hv, hslot, globalsHold_of_block hs.globals hblock⟩
  · exact globalsHold_of_block hs.globals (c.sound.cell hcast)
  · rw [c.symbols] at he
    exact globalsHold_of_block hs.globals (c.sound.entry he)

/-- A program that writes an integer past the end of an array, into a variable of another type. -/
def overwrite : Program :=
  ⟨[Build.array .int "a" 1, Build.var .double "b" none, Build.func "main" [] .void
    [Build.expr (Build.assign (Build.member "a" (Build.lit (.int 1))) (Build.lit (.int 7)))]]⟩

/-- The write succeeds, and the variable still holds a value of its type when the program ends. -/
theorem typed_memory_overwrite :
    ∃ (n : Nat) (m m' : Machine Unit), Machine.Steps n (.load (imageOf [] overwrite) ()) m ∧
      m.executeNext = .error (.halted 6) m' ∧ m.state.GlobalsHold 1 1 .double := by
  have hcompile : compile [] overwrite = .ok (imageOf [] overwrite) :=
    compile_eq_ok_imageOf (by decide +kernel)
  have haddr : (imageOf [] overwrite).Addressable := by
    unfold Image.Addressable
    decide +kernel
  have hentry : (imageOf [] overwrite).symbols.data.get? "b" = some ⟨1, .double, none⟩ := by
    decide +kernel
  have hhalt : (Machine.runWhile (fun _ => true) 10 (.load (imageOf [] overwrite) ())).2 =
      some (.halted 6) := by decide +kernel
  obtain ⟨n, m, hrun, hm⟩ := Machine.exists_steps_of_runWhile (Prod.ext rfl hhalt)
  obtain ⟨logs, htraced⟩ := hrun.traced
  obtain ⟨-, -, hdata, -⟩ := typed_memory hcompile haddr ⟨rfl, rfl⟩ htraced
  exact ⟨n, m, _, hrun, hm, hdata "b" _ hentry⟩

end Stepwise
