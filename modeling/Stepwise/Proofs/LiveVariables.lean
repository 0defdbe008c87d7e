import Mathlib
import Stepwise.Machine.Inspection
import Stepwise.Proofs.CallChain
import Stepwise.Proofs.TypedMemory

/-!
# The variables that a debugger shows

A paused program shows the parameters and local variables of its innermost call by their places
relative to the base pointer. Which slots the call has reserved is known from the address alone, so
it is known of every shown value whether it belongs to the variable whose name it is shown under:
it does unless its place lies among the temporaries above the reserved slots, where a variable that
is still to be declared will get its slot.

## Main definitions

* `FrameEntry.Live`: an element of a variable has its slot
* `Machine.Shows`: a value in the place of an element of a variable
* `Setting.Recorded`: every slot in use was reserved by the call that uses it

## Main results

* `reserved_iff`: the slots that a call has reserved, read off the address
* `locals_shown`: what the debugger lists, and which of it is live
-/

namespace Stepwise

/-- An element of a variable has its slot in a call that has executed these addresses: the variable
is a parameter, or the slot of the element was reserved. -/
def FrameEntry.Live (image : Image) (start : Nat) (log : List Nat) (e : FrameEntry) (k : Nat) :
    Prop :=
  e.offset < 0 ∨ ∃ slot : Nat, (slot : Int) = e.offset + k ∧ image.Reserved start log slot

/-- A value lies in the place of the `k`th element of a variable of the running function, which is
called by this label. -/
structure Machine.Shows {σ : Type} (m : Machine σ) (label : String) (v : Value) (f : CodeEntry)
    (e : FrameEntry) (k slot : Nat) : Prop where
  function : ∃ name, m.image.symbols.functionAt? m.state.pc = some (name, f)
  label : ∃ key, f.frame.get? key = some e ∧ (label, k) ∈ e.slots key
  place : (slot : Int) = m.state.bp + e.offset + k
  content : m.state.stack[slot]? = some v

/-! ## What a debugger lists -/

theorem Table.isSome_get?_ofList {α : Type} {es : List (String × α)} {e : String × α} (h : e ∈ es) :
    ((ofList es).get? e.1).isSome := by
  induction es using List.reverseRecOn with
  | nil => cases h
  | append_singleton es last ih =>
    rw [ofList_append, get?_insert]
    by_cases hlast : e.1 = last.1
    · simp [hlast]
    · rw [if_neg hlast]
      rcases List.mem_append.mp h with h | h
      · exact ih h
      · exact absurd (congrArg Prod.fst (List.mem_singleton.mp h)) hlast

/-- An element of a variable is one of its slots. -/
theorem FrameEntry.lt_span_of_mem_slots {e : FrameEntry} {key label : String} {k : Nat}
    (h : (label, k) ∈ e.slots key) : k < e.span := by
  unfold slots at h
  unfold span
  cases hlen : e.length with
  | none =>
    rw [hlen] at h
    cases List.mem_singleton.mp h
    exact Nat.zero_lt_one
  | some n =>
    rw [hlen] at h
    obtain ⟨i, hi, he⟩ := List.mem_map.mp h
    cases he
    exact List.mem_range.mp hi

theorem State.slot?_frame_eq_some {s : State} {i : Int} {v : Value} :
    s.slot? .frame i = some v ↔ ∃ slot : Nat, (slot : Int) = i ∧ s.stack[slot]? = some v := by
  unfold slot?
  constructor
  · intro h
    by_cases hi : 0 ≤ i
    · rw [if_pos hi] at h
      exact ⟨i.toNat, Int.toNat_of_nonneg hi, h⟩
    · rw [if_neg hi] at h
      cases h
  · rintro ⟨slot, rfl, h⟩
    rwa [if_pos (Int.natCast_nonneg slot), Int.toNat_natCast]

namespace Machine

variable {σ : Type} {m : Machine σ}

/-- A listed value lies in the place of an element of a variable. -/
theorem shows_of_locals {label : String} {v : Value} (h : m.locals.get? label = some v) :
    ∃ f e k slot, m.Shows label v f e k slot := by
  unfold locals Stepwise.locals at h
  cases hf : m.image.symbols.functionAt? m.state.pc with
  | none =>
    rw [hf] at h
    cases h
  | some found =>
    obtain ⟨name, f⟩ := found
    rw [hf] at h
    have hmem := Table.mem_of_mem_ofList (Table.get?_eq_some_iff.mp h)
    obtain ⟨⟨key, e⟩, hkey, hmem⟩ := List.mem_flatMap.mp hmem
    obtain ⟨⟨label', k⟩, hk, hv⟩ := List.mem_filterMap.mp hmem
    obtain ⟨w, hw, heq⟩ := Option.map_eq_some_iff.mp hv
    cases heq
    obtain ⟨slot, hslot, hcontent⟩ := State.slot?_frame_eq_some.mp hw
    exact ⟨f, e, k, slot, ⟨name, hf⟩, ⟨key, Table.get?_eq_some_iff.mpr hkey, hk⟩, hslot, hcontent⟩

/-- Every element of a variable that has a place on the stack is listed. -/
theorem Shows.listed {label : String} {v : Value} {f : CodeEntry} {e : FrameEntry} {k slot : Nat}
    (h : m.Shows label v f e k slot) : (m.locals.get? label).isSome := by
  obtain ⟨⟨name, hf⟩, ⟨key, hkey, hk⟩, hplace, hcontent⟩ := h
  unfold locals Stepwise.locals
  rw [hf]
  have hslot := State.slot?_frame_eq_some.mpr ⟨slot, hplace, hcontent⟩
  have hmem : (label, v) ∈ f.frame.entries.flatMap fun entry =>
      (entry.2.slots entry.1).filterMap fun cell =>
        (m.state.slot? .frame ((m.state.bp : Int) + entry.2.offset + cell.2)).map (cell.1, ·) := by
    refine List.mem_flatMap.mpr ⟨(key, e), Table.get?_eq_some_iff.mp hkey, ?_⟩
    exact List.mem_filterMap.mpr ⟨(label, k), hk, congrArg (Option.map (label, ·)) hslot⟩
  exact Table.isSome_get?_ofList hmem

end Machine

namespace Setting

/-! ## What is reserved has been executed -/

/-- In every call in progress, each slot below the number of reserved ones was reserved by an
instruction that the call has executed. -/
def Recorded (S : Setting) : List CallFrame → Nat → List (List Nat) → Prop
  | [], _, logs => logs = []
  | frame :: rest, pc, logs => ∃ log more, logs = log :: more ∧
    (∀ f ∈ S.routines, f.Holds pc → ∀ k, 0 < k → k < f.slots pc →
      ∃ a ∈ log, f.Holds a ∧ f.slots a = k ∧ ∃ j, S.program.code[a]? = some j ∧ j.reserves = true) ∧
    Recorded S rest frame.returnPc more

/-- A function starts with no slot but the link slot. -/
theorem not_lt_slots_entry {g : Routine} {k : Nat} (hk : 0 < k) : ¬ k < g.slots g.entry := by
  have hone : g.slots g.entry = 1 := by simp [Routine.slots]
  omega

/-- **A step keeps the record complete.** Only a reservation makes one more slot count as reserved,
and it is recorded. -/
theorem Recorded.step {S : Setting} (hv : S.Valid) {j : Instr} {s s' : State}
    {logs : List (List Nat)} (hrec : S.Recorded s.frames s.pc logs)
    (hj : S.program.code[s.pc]? = some j) (hshift : S.Shift j s s') :
    S.Recorded s'.frames s'.pc (s.record s' logs) := by
  cases hshift with
  | @stay f hne hf hpc hpc' hslots hframes =>
    rw [hframes]
    cases hs : s.frames with
    | nil => exact absurd hs hne
    | cons frame rest =>
      rw [hs] at hrec
      obtain ⟨log, more, rfl, hlog, hrest⟩ := hrec
      rw [State.record_of_same hframes]
      refine ⟨_, _, rfl, ?_, hrest⟩
      intro g hg hgpc k hk hlt
      obtain rfl := hv.unique f hf g hg _ hpc' hgpc
      by_cases hold : k < f.slots s.pc
      · obtain ⟨a, ha, hfound⟩ := hlog f hf hpc k hk hold
        exact ⟨a, List.mem_cons_of_mem _ ha, hfound⟩
      · -- the slot is new, so the instruction has reserved it
        rw [hslots] at hlt
        have hres : j.reserves = true := by
          cases hres : j.reserves with
          | true => rfl
          | false =>
            rw [hres] at hlt
            exact absurd hlt hold
        rw [hres, Bool.toNat_true] at hlt
        exact ⟨s.pc, List.mem_cons_self, hpc, by omega, j, hj, hres⟩
  | @call f g hne hf hpc hpc' hslots hres hg hentry hframes =>
    rw [hframes, hentry]
    cases hs : s.frames with
    | nil => exact absurd hs hne
    | cons frame rest =>
      rw [hs] at hrec
      obtain ⟨log, more, rfl, hlog, hrest⟩ := hrec
      rw [State.record_of_call hframes]
      refine ⟨_, _, rfl, ?_, _, _, rfl, ?_, hrest⟩
      · intro g' hg' hholds k hk hlt
        have hgentry : g.Holds g.entry := ⟨le_rfl, by have := hv.nonempty g hg; omega⟩
        obtain rfl := hv.unique g hg g' hg' _ hgentry hholds
        exact absurd hlt (not_lt_slots_entry hk)
      · intro h hh hhpc k hk hlt
        obtain rfl := hv.unique f hf h hh _ hpc' hhpc
        rw [hslots] at hlt
        obtain ⟨a, ha, hfound⟩ := hlog f hf hpc k hk hlt
        exact ⟨a, List.mem_cons_of_mem _ ha, hfound⟩
  | @ret frame rest hframes hframes' hpc =>
    subst hframes'
    rw [hframes] at hrec
    obtain ⟨log, more, rfl, -, hrest⟩ := hrec
    rw [State.record_of_return hframes, hpc]
    exact hrest
  | @boot g frame hframes hframes' hg _ hpc =>
    rw [hframes] at hrec
    obtain rfl : logs = [] := hrec
    rw [State.record_of_boot hframes hframes', hframes', hpc]
    refine ⟨_, _, rfl, ?_, rfl⟩
    intro g' hg' hholds k hk hlt
    have hgentry : g.Holds g.entry := ⟨le_rfl, by have := hv.nonempty g hg; omega⟩
    obtain rfl := hv.unique g hg g' hg' _ hgentry hholds
    exact absurd hlt (not_lt_slots_entry hk)
  | rest hframes hframes' =>
    rw [hframes] at hrec
    obtain rfl : logs = [] := hrec
    rw [State.record_of_rest hframes hframes', hframes']
    rfl

end Setting

namespace Compiler.Compilation

variable {σ : Type} {hosts : List HostDecl} {program : Program} {image : Image}
  (c : Compilation hosts program image)

/-- Where the innermost call is in a routine, its part of the stack is as the routine says. -/
theorem active_of_steady (hsize : image.Addressable) {s : State} (hs : c.setting.Steady s)
    {f : Routine} (hf : f ∈ c.setting.routines) (hpc : f.Holds s.pc) :
    ∃ frame rest, s.frames = frame :: rest ∧
      Setting.Active s.stackTypes f frame s.pc s.bp s.sp := by
  have hchain := hs.chain
  cases hframes : s.frames with
  | nil =>
    rw [hframes] at hchain
    exact absurd hpc ((c.valid hsize).not_holds_of_atRest hf hchain.1)
  | cons frame rest =>
    rw [hframes] at hchain
    obtain ⟨g, hg, hactive, -⟩ := hchain
    obtain rfl := c.holds_unique hf hg hpc hactive.holds
    exact ⟨frame, rest, rfl, hactive⟩

/-- The record of every run is complete. -/
theorem recorded_of_traced (hsize : image.Addressable) {m₀ m : Machine σ} {logs : List (List Nat)}
    (hstart : m₀.Starts image) (hrun : m₀.Traced m logs) :
    c.setting.Recorded m.state.frames m.state.pc logs := by
  induction hrun with
  | start =>
    rw [hstart.2]
    rfl
  | step hprev hstep ih =>
    obtain ⟨himage, hs, -⟩ := c.covered_of_traced hsize hstart hprev
    obtain ⟨i, op, s, w, hi, hd, ht, rfl⟩ := Machine.executeNext_eq_ok_iff.mp hstep
    rw [himage] at hi
    exact ih.step (c.valid hsize) hi (hs.step (c.valid hsize) hi hd ht).2

/-- **The slots that a call has reserved are read off its address.** -/
theorem reserved_iff (hsize : image.Addressable) {f : Routine} (hf : f ∈ c.setting.routines)
    {frame : CallFrame} {rest : List CallFrame} {pc : Nat} {logs : List (List Nat)}
    (hpc : f.Holds pc) (hcov : c.setting.Covered (frame :: rest) pc logs)
    (hrec : c.setting.Recorded (frame :: rest) pc logs) (k : Nat) :
    image.Reserved f.entry (logs.headD []) k ↔ 0 < k ∧ k < 1 + image.reservedBefore f.entry pc := by
  obtain ⟨log, more, rfl, hlog, -⟩ := hcov
  obtain ⟨_, _, heq, hfound, -⟩ := hrec
  cases heq
  have hslots {a : Nat} (ha : f.Holds a) : f.slots a = 1 + image.reservedBefore f.entry a :=
    (c.counts_eq hsize hf ha).2
  rw [← hslots hpc]
  constructor
  · rintro ⟨a, ha, j, hj, hres, rfl⟩
    obtain ⟨hholds, hlt⟩ := hlog f hf hpc a ha
    rw [← hslots hholds]
    exact ⟨by rw [hslots hholds]; omega, hlt j hj hres⟩
  · rintro ⟨hk, hlt⟩
    obtain ⟨a, ha, hholds, rfl, j, hj, hres⟩ := hfound f hf hpc k hk hlt
    exact ⟨a, ha, j, hj, hres, hslots hholds⟩

include c in
/-- A shown value is that of a live variable exactly if it lies below the temporaries. -/
theorem live_iff (hsize : image.Addressable) {m₀ m : Machine σ} {logs : List (List Nat)}
    (hstart : m₀.Starts image) (hrun : m₀.Traced m logs) {label : String} {v : Value}
    {f : CodeEntry} {e : FrameEntry} {k slot : Nat} (h : m.Shows label v f e k slot) :
    e.Live image f.addr (logs.headD []) k ↔
      slot < m.state.bp + 1 + image.reservedBefore f.addr m.state.pc := by
  obtain ⟨himage, hs, hcov⟩ := c.covered_of_traced hsize hstart hrun
  have hrec := c.recorded_of_traced hsize hstart hrun
  obtain ⟨⟨name, hf⟩, ⟨key, hkey, hk⟩, hplace, -⟩ := h
  rw [himage] at hf
  obtain ⟨d, hd, -, hentry, hr, hpc⟩ := c.routine_of_functionAt? hf
  have hkey' : d.finish.frame.entries.get? key = some e := by
    rw [hentry] at hkey
    exact hkey
  have hspan := FrameEntry.lt_span_of_mem_slots hk
  obtain ⟨frame, rest, hframes, -⟩ := c.active_of_steady hsize hs hr hpc
  rw [hframes] at hcov hrec
  have hreserved := c.reserved_iff hsize hr hpc hcov hrec
  rcases (c.compiled hd).frame_sound.placed hkey' with ⟨hscalar, -, hneg⟩ | ⟨hpos, -⟩
  · -- a parameter has one slot, below the link slot
    have hone : k = 0 := by
      unfold FrameEntry.span at hspan
      rw [hscalar, Option.getD_none] at hspan
      omega
    exact iff_of_true (.inl hneg) (by omega)
  · -- a local variable is reserved exactly up to the count at the address
    constructor
    · rintro (hneg | ⟨slot', hslot', hres⟩)
      · omega
      · have hlt := ((hreserved slot').mp hres).2
        change slot' < 1 + image.reservedBefore f.addr m.state.pc at hlt
        omega
    · intro hlt
      refine .inr ⟨slot - m.state.bp, by omega, (hreserved _).mpr ⟨by omega, ?_⟩⟩
      change slot - m.state.bp < 1 + image.reservedBefore f.addr m.state.pc
      omega

end Compiler.Compilation

/-- **What a debugger shows.** In every state that a compiled program reaches, with any host, every
listed value is the content of the place of a variable of the running function, or of an element of
an array, and everything with such a place on the stack is listed. The variable is a parameter or
has its slot reserved in this call, unless the place lies above the reserved slots, where only
temporaries are. So all that is listed is live wherever no temporary is on the stack. -/
theorem locals_shown {σ : Type} {hosts : List HostDecl} {program : Program} {image : Image}
    (hcompile : compile hosts program = .ok image) (haddr : image.Addressable)
    {m₀ m : Machine σ} {logs : List (List Nat)} (hstart : m₀.Starts image)
    (hrun : m₀.Traced m logs) :
    (∀ label v, m.locals.get? label = some v → ∃ f e k slot, m.Shows label v f e k slot ∧
      (e.Live image f.addr (logs.headD []) k ↔
        slot < m.state.bp + 1 + image.reservedBefore f.addr m.state.pc) ∧
      (image.heightAt m.state.pc = 1 + image.reservedBefore f.addr m.state.pc →
        e.Live image f.addr (logs.headD []) k)) ∧
    ∀ label v f e k slot, m.Shows label v f e k slot → (m.locals.get? label).isSome := by
  obtain ⟨c, -⟩ := Compiler.exists_compilation hcompile
  refine ⟨?_, fun label v f e k slot h => h.listed⟩
  intro label v hv
  obtain ⟨f, e, k, slot, h⟩ := Machine.shows_of_locals hv
  have hlive := c.live_iff haddr hstart hrun h
  refine ⟨f, e, k, slot, h, hlive, ?_⟩
  intro hheight
  obtain ⟨himage, hs, -⟩ := c.covered_of_traced haddr hstart hrun
  obtain ⟨name, hf⟩ := h.function
  rw [himage] at hf
  have hsp := (c.height_of_steady haddr hs hf).1
  obtain ⟨hlt, -⟩ := Array.getElem?_eq_some_iff.mp h.content
  rw [State.sp, hheight] at hsp
  exact hlive.mpr (by omega)

/-- The machine that a run pauses in, with a record of the run. -/
theorem Machine.exists_traced {σ : Type} {m₀ : Machine σ} {P : Machine σ → Prop} (fuel : Nat)
    (h : (runWhile (fun _ => true) fuel m₀).2 = none ∧ P (runWhile (fun _ => true) fuel m₀).1) :
    ∃ m logs, Traced m₀ m logs ∧ P m := by
  obtain ⟨n, hn⟩ := steps_of_runWhile h.1
  obtain ⟨logs, hrun⟩ := hn.traced
  exact ⟨_, logs, hrun, h.2⟩

/-- A program with a variable that is assigned. -/
def assigned : Program :=
  ⟨[Build.func "main" [] .void
    [Build.var .int "x" (some (Build.lit (.int 2))),
      Build.expr (Build.assign (Build.ident "x") (Build.lit (.int 3)))]]⟩

/-- Before the assignment the variable is listed with its first value, and it is live. -/
theorem locals_shown_assigned :
    ∃ (m : Machine Unit) (logs : List (List Nat)),
      Machine.Traced (.load (imageOf [] assigned) ()) m logs ∧ m.locals.get? "x" = some (.int 2) ∧
      ∃ f e k slot, m.Shows "x" (.int 2) f e k slot ∧
        e.Live (imageOf [] assigned) f.addr (logs.headD []) k := by
  have hcompile : compile [] assigned = .ok (imageOf [] assigned) :=
    compile_eq_ok_imageOf (by decide +kernel)
  have haddr : (imageOf [] assigned).Addressable := by
    unfold Image.Addressable
    decide +kernel
  have hpaused : ∃ m logs, Machine.Traced (.load (imageOf [] assigned) ()) m logs ∧
      m.locals.get? "x" = some (.int 2) ∧
      (m.image.symbols.functionAt? m.state.pc).all (fun f => (imageOf [] assigned).heightAt m.state.pc
        = 1 + (imageOf [] assigned).reservedBefore f.2.addr m.state.pc) = true :=
    Machine.exists_traced 2 (by decide +kernel)
  obtain ⟨m, logs, hrun, hlisted, hflat⟩ := hpaused
  obtain ⟨f, e, k, slot, hshows, -, hlive⟩ :=
    (locals_shown hcompile haddr ⟨rfl, rfl⟩ hrun).1 "x" (.int 2) hlisted
  obtain ⟨name, hf⟩ := hshows.function
  rw [hf, Option.all_some, decide_eq_true_iff] at hflat
  exact ⟨m, logs, hrun, hlisted, f, e, k, slot, hshows, hlive hflat⟩

/-- A program that prints a number before it declares its variable. -/
def lateVariable : Program :=
  ⟨[Build.func "main" [] .void
    [Build.expr (Build.call "println" [Build.lit (.int 7)]),
      Build.var .int "x" (some (Build.lit (.int 2)))]]⟩

/-- With the argument of the call on the stack, the argument is listed as the variable. -/
theorem temporary_listed_as_variable :
    ∃ (m : Machine Unit) (logs : List (List Nat)) (f : CodeEntry) (e : FrameEntry),
      Machine.Traced (.load (imageOf builtins lateVariable) ()) m logs ∧
      m.locals.get? "x" = some (.int 7) ∧ m.image.symbols.functionAt? m.state.pc = some ("main", f) ∧
      f.frame.get? "x" = some e ∧
      ¬ e.Live (imageOf builtins lateVariable) f.addr (logs.headD []) 0 := by
  have hcompile : compile builtins lateVariable = .ok (imageOf builtins lateVariable) :=
    compile_eq_ok_imageOf (by decide +kernel)
  have haddr : (imageOf builtins lateVariable).Addressable := by
    unfold Image.Addressable
    decide +kernel
  have hpaused : ∃ m logs, Machine.Traced (.load (imageOf builtins lateVariable) ()) m logs ∧
      m.locals.get? "x" = some (.int 7) ∧ m.state.bp = 0 ∧ m.state.stack[1]? = some (.int 7) ∧
      m.image.symbols.functionAt? m.state.pc =
        some ("main", ⟨2, 4, .void, Table.empty.insert "x" ⟨1, .int, none⟩⟩) ∧
      (imageOf builtins lateVariable).reservedBefore 2 m.state.pc = 0 :=
    Machine.exists_traced 2 (by decide +kernel)
  obtain ⟨m, logs, hrun, hlisted, hbp, hcontent, hfunction, hnone⟩ := hpaused
  obtain ⟨c, -⟩ := Compiler.exists_compilation hcompile
  have hshows : m.Shows "x" (.int 7) _ ⟨1, .int, none⟩ 0 1 :=
    ⟨⟨_, hfunction⟩, ⟨"x", rfl, List.mem_singleton.mpr rfl⟩, by rw [hbp]; rfl, hcontent⟩
  refine ⟨m, logs, _, ⟨1, .int, none⟩, hrun, hlisted, hfunction, rfl, ?_⟩
  rw [c.live_iff haddr ⟨rfl, rfl⟩ hrun hshows, hbp, hnone]
  decide

end Stepwise
