import Mathlib
import Stepwise.Proofs.Coherence
import Stepwise.Source.Build

/-!
# The stack discipline of compiled programs

A compiled program never trips over its own code: whatever it computes, wherever its indices point
and whatever the host returns, the machine finds a well-formed instruction, a target for every jump,
a caller for every return and enough values on the stack. What can still go wrong is arithmetic, a
conversion, a host function that is missing, or an index.

## Main definitions

* `Machine.Starts`: a machine in which a program starts, with any host
* `Image.Addressable`: addresses of the program are machine words
* `Fault.isStructural`: the faults that only wrong code can cause

## Main results

* `no_structural_fault`: which faults a compiled program can end with
-/

namespace Stepwise

/-- A machine in which a program starts, with any host functions, hooks and world. -/
def Machine.Starts {σ : Type} (m : Machine σ) (image : Image) : Prop :=
  m.image = image ∧ m.state = .initial image.globals

/-- The addresses of a program are machine words. Every program that fits into the memory of a
64-bit machine is so short, as an array there has fewer than `2 ^ 63` elements. -/
def Image.Addressable (image : Image) : Prop := image.code.size < 2 ^ 63

/-- Faults that no program should be able to cause: they mean that the code makes no sense. -/
def Fault.isStructural : Fault → Bool
  | .stackUnderflow | .noCallFrame | .invalidJump _ | .malformed _ _ => true
  | _ => false

/-- The operands of an operation, as its instruction lists them. -/
def Operation.operands : Operation → List Operand
  | .compute _ dest src | .move dest src => [dest, src]
  | .change _ dest | .pop dest => [dest]
  | .push src => [src]
  | .load dest v => [.reg dest, .imm v]
  | .jump _ target condition => target :: condition.toList
  | .call target argc => [target, argc]
  | .ret | .nop => []

theorem operands_of_decode {j : Instr} {op : Operation} (h : j.decode = .ok op) :
    j.operands = op.operands := by
  obtain ⟨code, dest, src, comment, origin⟩ := j
  unfold Instr.decode at h
  simp only at h
  split at h
  all_goals first
    | (cases h; rfl)
    | cases h

/-! ## Runs of compiled programs -/

namespace Compiler.Compilation

variable {σ : Type} {hosts : List HostDecl} {program : Program} {image : Image}
  (c : Compilation hosts program image)

/-- **Every state that a compiled program reaches is coherent**, and its code stays the same. -/
theorem steady_of_steps (hsize : image.Addressable) {m₀ m : Machine σ} {n : Nat}
    (hstart : m₀.Starts image) (hrun : Machine.Steps n m₀ m) :
    m.image = image ∧ c.setting.Steady m.state := by
  refine hrun.invariant (P := fun m => m.image = image ∧ c.setting.Steady m.state) ?_ ?_
  · rw [hstart.1, hstart.2]
    exact ⟨rfl, c.steady_initial hsize⟩
  · rintro a b ⟨himage, hs⟩ hstep
    obtain ⟨i, op, s, w, hi, hd, ht, rfl⟩ := Machine.executeNext_eq_ok_iff.mp hstep
    rw [himage] at hi
    exact ⟨himage, (hs.step (c.valid hsize) hi hd ht).1⟩

end Compiler.Compilation

namespace Setting

/-! ## What can go wrong -/

/-- A fault is due to an index: the operand that it blames has the index register. -/
def Blames (s : State) (p : Ptr) (e : Fault) : Prop :=
  p.index = some .ix ∧ ((∃ k, e = .outOfBounds p k) ∨ e = .invalidIndex (s.registers.get .ix))

/-- The faults that compiled code can cause. -/
inductive Permits (s : State) (j : Instr) : Fault → Prop
  | arithmetic (cause : ArithmeticError) : Permits s j (.arithmetic cause)
  | conversion (cause : ConversionError) : Permits s j (.conversion cause)
  | unregistered (name : String) : Permits s j (.unregistered name)
  | index {p : Ptr} {e : Fault} : .ptr p ∈ j.operands → Blames s p e → Permits s j e

variable {S : Setting} {s s' : State} {f : Routine} {frame : CallFrame} {j : Instr} {e : Fault}

theorem slot?_isSome {base : Base} {i : Int} (h : 0 ≤ i) (hlt : i.toNat < (s.region base).size) :
    (s.slot? base i).isSome := by
  rw [State.slot?, if_pos h, Array.getElem?_eq_getElem hlt]
  rfl

/-- Without an index, an operand of compiled code names a slot. -/
theorem slot?_isSome_of_reaches {base : Base} {offset : Int}
    (hs : s.globals.size = S.globals.values.size)
    (ha : Active s.stackTypes f frame s.pc s.bp s.sp)
    (ho : S.Reaches f (f.height s.pc) (.ptr ⟨base, offset, none⟩)) :
    (s.slot? base (s.origin base + offset)).isSome := by
  have hheight := ha.height
  have hargc := ha.argc_le
  cases base with
  | frame =>
    obtain ⟨hlow, hhigh⟩ := ho
    have hlt : ((s.bp : Int) + offset).toNat < s.sp := by omega
    have hnonneg : 0 ≤ (s.bp : Int) + offset := by omega
    exact slot?_isSome hnonneg hlt
  | global =>
    obtain ⟨hlow, hhigh⟩ := ho
    have hlt : (((0 : Nat) : Int) + offset).toNat < s.globals.size := by omega
    have hnonneg : 0 ≤ ((0 : Nat) : Int) + offset := by omega
    exact slot?_isSome hnonneg hlt

/-- Only an index can lead an operand of compiled code astray. -/
theorem blames_of_locate {p : Ptr} (hs : s.globals.size = S.globals.values.size)
    (ha : Active s.stackTypes f frame s.pc s.bp s.sp)
    (ho : S.Reaches f (f.height s.pc) (.ptr p)) (he : s.locate p = .error e) : Blames s p e := by
  obtain ⟨base, offset, index⟩ := p
  cases index with
  | none =>
    -- the slot is there, so there is no fault
    have hslot := slot?_isSome_of_reaches hs ha ho
    obtain ⟨v, hv⟩ := Option.isSome_iff_exists.mp hslot
    simp [State.locate, State.indexValue, hv, bind, Except.bind] at he
  | some x =>
    have hx : x = .ix := by cases base <;> exact ho
    subst hx
    refine ⟨rfl, ?_⟩
    simp only [State.locate, State.indexValue] at he
    cases hn : (s.registers.get .ix).toInt? with
    | none =>
      simp only [hn] at he
      cases he
      exact .inr rfl
    | some n =>
      simp only [hn, bind, Except.bind] at he
      split at he
      · split at he
        · cases he
        · cases he
          exact .inl ⟨_, rfl⟩
      · cases he
        exact .inl ⟨_, rfl⟩

theorem permits_of_read {o : Operand} (hs : s.globals.size = S.globals.values.size)
    (ha : Active s.stackTypes f frame s.pc s.bp s.sp) (ho : S.Reaches f (f.height s.pc) o)
    (hmem : o ∈ j.operands) (he : s.read o = .error e) : Permits s j e := by
  cases o with
  | imm v => cases he
  | reg x => cases he
  | ptr p =>
    simp only [State.read] at he
    cases hl : s.locate p with
    | ok r =>
      rw [hl] at he
      cases he
    | error e' =>
      rw [hl] at he
      cases he
      exact .index hmem (blames_of_locate hs ha ho hl)
  | var key index => exact ho.elim
  | label name => exact ho.elim
  | host name => exact ho.elim

theorem permits_of_write {o : Operand} {v : Value} (hs : s.globals.size = S.globals.values.size)
    (ha : Active s.stackTypes f frame s.pc s.bp s.sp) (ho : S.Stores f (f.height s.pc) o)
    (hmem : o ∈ j.operands) (he : s.write o v = .error e) : Permits s j e := by
  cases o with
  | imm v => exact absurd rfl (ho.2 v)
  | reg x => cases he
  | ptr p =>
    simp only [State.write] at he
    cases hl : s.locate p with
    | error e' =>
      rw [hl] at he
      cases he
      exact .index hmem (blames_of_locate hs ha ho.1 hl)
    | ok r =>
      rw [hl] at he
      cases hc : coerce r.2.ty v with
      | ok new => simp [hc, liftConversion, bind, Except.bind] at he
      | error cause =>
        simp only [hc, liftConversion, bind, Except.bind] at he
        cases he
        exact .conversion cause
  | var key index => exact ho.1.elim
  | label name => exact ho.1.elim
  | host name => exact ho.1.elim

theorem permits_of_arithmetic {α : Type} {x : Except ArithmeticError α}
    (he : liftArithmetic x = .error e) : Permits s j e := by
  cases x with
  | ok a => cases he
  | error cause =>
    cases he
    exact .arithmetic cause

/-- **Inside a function, only permitted faults occur.** -/
theorem permits_of_performs {σ : Type} {hosts : Table (HostFunction σ)} {w : σ} {op : Operation}
    {rest : List CallFrame} (hs : s.globals.size = S.globals.values.size)
    (hframes : s.frames = frame :: rest) (ha : Active s.stackTypes f frame s.pc s.bp s.sp)
    (hp : S.Performs f s.pc j op) (hops : j.operands = op.operands)
    (he : Machine.transition hosts j op s w = .error e) : Permits s j e := by
  have hheight := ha.height
  cases hp with
  | @compute op dest src hdest hsrc _ _ =>
    have hd : dest ∈ j.operands := by rw [hops]; simp [Operation.operands]
    have hr : src ∈ j.operands := by rw [hops]; simp [Operation.operands]
    simp only [Machine.transition, bind_eq_error] at he
    rcases he with he | ⟨a, -, he | ⟨b, -, he | ⟨v, -, he | ⟨s₁, -, ⟨⟩⟩⟩⟩⟩
    · exact permits_of_read hs ha hdest.1 hd he
    · exact permits_of_read hs ha hsrc hr he
    · exact permits_of_arithmetic he
    · exact permits_of_write hs ha hdest hd he
  | @change op dest hdest _ _ =>
    have hd : dest ∈ j.operands := by rw [hops]; simp [Operation.operands]
    simp only [Machine.transition, bind_eq_error] at he
    rcases he with he | ⟨a, -, he | ⟨v, -, he | ⟨s₁, -, ⟨⟩⟩⟩⟩
    · exact permits_of_read hs ha hdest.1 hd he
    · exact permits_of_arithmetic he
    · exact permits_of_write hs ha hdest hd he
  | @move dest src hdest hsrc _ _ =>
    have hd : dest ∈ j.operands := by rw [hops]; simp [Operation.operands]
    have hr : src ∈ j.operands := by rw [hops]; simp [Operation.operands]
    simp only [Machine.transition, bind_eq_error] at he
    rcases he with he | ⟨v, -, he | ⟨s₁, -, ⟨⟩⟩⟩
    · exact permits_of_read hs ha hsrc hr he
    · exact permits_of_write hs ha hdest hd he
  | load => cases he
  | @push src hsrc _ _ =>
    have hr : src ∈ j.operands := by rw [hops]; simp [Operation.operands]
    simp only [Machine.transition, bind_eq_error] at he
    rcases he with he | ⟨v, -, ⟨⟩⟩
    exact permits_of_read hs ha hsrc hr he
  | reserve => cases he
  | @pop x hlt _ _ =>
    -- the stack is higher than the slots of the variables, so it is not empty
    have hback : s.stack.back? ≠ none := by
      have hsp : s.sp = s.stack.size := rfl
      rw [Array.back?_eq_getElem?, Array.getElem?_eq_getElem (by omega)]
      simp
    simp only [Machine.transition] at he
    split at he
    next hnone => exact absurd hnone hback
    · cases he
  | @jump t condition target htarget hcond _ _ _ =>
    have htaken : ∃ taken, Machine.isTaken s condition = .ok taken := by
      cases condition with
      | none => exact ⟨true, rfl⟩
      | some c =>
        obtain ⟨x, rfl⟩ := hcond c rfl
        exact ⟨_, rfl⟩
    obtain ⟨taken, htaken⟩ := htaken
    cases taken <;>
      simp [Machine.transition, htaken, integer_imm, htarget, jumpTarget_natCast, bind,
        Except.bind] at he
  | @host name n argc hn hle _ _ =>
    have hargs : ¬ s.stack.size < argc := by
      have hsp : s.sp = s.stack.size := rfl
      omega
    simp only [Machine.transition, integer_imm, bind, Except.bind, argumentCount_of_toInt hn,
      if_neg hargs] at he
    split at he
    · cases he
      exact .unregistered name
    · cases he
  | @call t n g hg ht hn hle _ _ =>
    have hargs : ¬ s.stack.size < g.argc := by
      have hsp : s.sp = s.stack.size := rfl
      omega
    simp [Machine.transition, integer_imm, bind, Except.bind, argumentCount_of_toInt hn, hargs, ht,
      jumpTarget_natCast] at he
  | ret _ =>
    simp only [Machine.transition, hframes] at he
    split at he
    next hlow =>
      have hargc := ha.argc
      have hle := ha.argc_le
      omega
    · cases he

/-- Outside of all functions, no instruction fails. -/
theorem AtRest.not_fault {σ : Type} {hosts : Table (HostFunction σ)} {w : σ} {op : Operation}
    (h : S.AtRest s.pc) (hj : S.program.code[s.pc]? = some j) (hd : j.decode = .ok op)
    (he : Machine.transition hosts j op s w = .error e) : False := by
  rcases h with hend | ⟨j', t, hj', hd', hto⟩ | ⟨j', t, n, g, hj', hd', hg, hto, hn, hargc, -⟩
  · rw [hend, Array.getElem?_size] at hj
    cases hj
  · cases hj.symm.trans hj'
    cases hd.symm.trans hd'
    simp [Machine.transition, Machine.isTaken, integer_imm, hto, jumpTarget_natCast, bind,
      Except.bind] at he
  · cases hj.symm.trans hj'
    cases hd.symm.trans hd'
    have hcount : Machine.argumentCount j n = .ok 0 := argumentCount_of_toInt (by rw [hn]; rfl)
    simp [Machine.transition, integer_imm, hcount, hto, jumpTarget_natCast, bind,
      Except.bind] at he

/-- Outside of all functions, every instruction decodes. -/
theorem AtRest.exists_decode (h : S.AtRest s.pc) (hj : S.program.code[s.pc]? = some j) :
    ∃ op, j.decode = .ok op := by
  rcases h with hend | ⟨j', t, hj', hd', -⟩ | ⟨j', t, n, g, hj', hd', -⟩
  · rw [hend, Array.getElem?_size] at hj
    cases hj
  · cases hj.symm.trans hj'
    exact ⟨_, hd'⟩
  · cases hj.symm.trans hj'
    exact ⟨_, hd'⟩

/-- **In a coherent state, only permitted faults occur**, and the program halts at its end. -/
theorem Steady.fault (hv : S.Valid) (hs : S.Steady s) {σ : Type} {hosts : Table (HostFunction σ)}
    {w : σ} (hj : S.program.code[s.pc]? = some j)
    (he : j.decode = .error e ∨
      ∃ op, j.decode = .ok op ∧ Machine.transition hosts j op s w = .error e) : Permits s j e := by
  obtain ⟨hchain, hglobals⟩ := hs
  have hsize : s.globals.size = S.globals.values.size := by
    simpa [State.globalTypes] using congrArg Array.size hglobals
  cases hframes : s.frames with
  | nil =>
    rw [hframes] at hchain
    rcases he with he | ⟨op, hd, he⟩
    · obtain ⟨op, hd⟩ := hchain.1.exists_decode hj
      cases hd.symm.trans he
    · exact (hchain.1.not_fault hj hd he).elim
  | cons frame rest =>
    rw [hframes] at hchain
    obtain ⟨f, hf, ha, -⟩ := hchain
    obtain ⟨j', op', hj', hd', hp⟩ := performs_of_holds hv hf ha.holds
    cases hj.symm.trans hj'
    rcases he with he | ⟨op, hd, he⟩
    · cases he.symm.trans hd'
    · cases hd.symm.trans hd'
      exact permits_of_performs hsize hframes ha hp (operands_of_decode hd) he

/-- Where there is no instruction, the program has come to its end. -/
theorem Steady.halted (hv : S.Valid) (hs : S.Steady s) (hj : S.program.code[s.pc]? = none) :
    s.pc = S.program.code.size ∧ s.sp = 0 ∧ s.bp = 0 ∧ s.frames = [] := by
  obtain ⟨hchain, -⟩ := hs
  cases hframes : s.frames with
  | nil =>
    rw [hframes] at hchain
    obtain ⟨hend | ⟨j', -, hj', -⟩ | ⟨j', -, -, -, hj', -⟩, hbp, hsp⟩ := hchain
    · exact ⟨hend, hsp, hbp, rfl⟩
    · cases hj.symm.trans hj'
    · cases hj.symm.trans hj'
  | cons frame rest =>
    rw [hframes] at hchain
    obtain ⟨f, hf, ha, -⟩ := hchain
    obtain ⟨j', -, hj', -⟩ := performs_of_holds hv hf ha.holds
    cases hj.symm.trans hj'

end Setting

/-- **A compiled program never trips over its own code.** A step that fails has run past the end of
the program or fails for a reason that lies in the program: only an operand with the index register
can leave its region. -/
theorem no_structural_fault {σ : Type} {hosts : List HostDecl} {program : Program} {image : Image}
    (hcompile : compile hosts program = .ok image) (haddr : image.Addressable)
    {m₀ m m' : Machine σ} {n : Nat} (hstart : m₀.Starts image) (hrun : Machine.Steps n m₀ m)
    {e : Fault} (hfault : m.executeNext = .error e m') :
    e.isStructural = false ∧
      (∀ pc, e = .halted pc → pc = image.code.size ∧ m.state.pc = image.code.size) ∧
      (∀ p k, e = .outOfBounds p k → p.index = some .ix ∧
        ∃ i, image.code[m.state.pc]? = some i ∧ .ptr p ∈ i.operands) ∧
      ∀ v, e = .invalidIndex v → v = m.state.registers.get .ix ∧
        ∃ i p, image.code[m.state.pc]? = some i ∧ .ptr p ∈ i.operands ∧ p.index = some .ix := by
  obtain ⟨c, -⟩ := Compiler.exists_compilation hcompile
  obtain ⟨himage, hs⟩ := c.steady_of_steps haddr hstart hrun
  obtain ⟨-, ⟨hnone, rfl⟩ | ⟨i, hi, he⟩⟩ := Machine.executeNext_eq_error_iff.mp hfault
  · rw [himage] at hnone
    have hpc : m.state.pc = image.code.size := (hs.halted (c.valid haddr) hnone).1
    refine ⟨rfl, ?_, by simp, by simp⟩
    rintro pc ⟨⟩
    exact ⟨hpc, hpc⟩
  · rw [himage] at hi
    cases hs.fault (c.valid haddr) hi he with
    | arithmetic => simp [Fault.isStructural]
    | conversion => simp [Fault.isStructural]
    | unregistered => simp [Fault.isStructural]
    | @index p e hmem hblames =>
      obtain ⟨hix, ⟨k, rfl⟩ | rfl⟩ := hblames
      · refine ⟨rfl, by simp, ?_, by simp⟩
        rintro p' k' ⟨⟩
        exact ⟨hix, i, hi, hmem⟩
      · refine ⟨rfl, by simp, by simp, ?_⟩
        rintro v ⟨⟩
        exact ⟨rfl, i, p, hi, hmem, hix⟩

/-- The image of a program, if it has one. -/
def imageOf (hosts : List HostDecl) (program : Program) : Image :=
  match compile hosts program with
  | .ok image => image
  | .error _ => ⟨#[], #[], .empty⟩

theorem compile_eq_ok_imageOf {hosts : List HostDecl} {program : Program}
    (h : (compile hosts program).isOk = true) :
    compile hosts program = .ok (imageOf hosts program) := by
  unfold imageOf
  cases hc : compile hosts program with
  | ok image => rfl
  | error e =>
    rw [hc] at h
    cases h

/-- A program that writes past the end of its only array. -/
def overrun : Program :=
  ⟨[Build.array .int "a" 1, Build.func "main" [] .void
    [Build.expr (Build.assign (Build.member "a" (Build.lit (.int 7))) (Build.lit (.int 1)))]]⟩

/-- The machine refuses the write, and the operand that it blames has the index register. -/
theorem no_structural_fault_overrun :
    ∃ (n : Nat) (m m' : Machine Unit), Machine.Steps n (.load (imageOf [] overrun) ()) m ∧
      m.executeNext = .error (.outOfBounds ⟨.global, 0, some .ix⟩ 7) m' ∧
      ∃ i, (imageOf [] overrun).code[m.state.pc]? = some i ∧
        .ptr ⟨.global, 0, some .ix⟩ ∈ i.operands := by
  have hcompile : compile [] overrun = .ok (imageOf [] overrun) :=
    compile_eq_ok_imageOf (by decide +kernel)
  have haddr : (imageOf [] overrun).Addressable := by
    unfold Image.Addressable
    decide +kernel
  have hfault : (Machine.runWhile (fun _ => true) 10 (.load (imageOf [] overrun) ())).2 =
      some (.outOfBounds ⟨.global, 0, some .ix⟩ 7) := by decide +kernel
  obtain ⟨n, m, hrun, hm⟩ := Machine.exists_steps_of_runWhile (Prod.ext rfl hfault)
  refine ⟨n, m, _, hrun, hm, ?_⟩
  exact ((no_structural_fault hcompile haddr ⟨rfl, rfl⟩ hrun hm).2.2.1 _ _ rfl).2

end Stepwise
