import Mathlib
import Stepwise.Proofs.Agreement

/-!
# Straight code

Code that only moves values, without jumps and calls, does the same wherever it stands, in any
program and on any machine, with or without hooks: it takes one state to another, and the program
counter and the number of steps grow by its size. What a piece of such code does is read off its
instructions one by one.

## Main definitions

* `State.reached`: the state at another address and after another number of steps
* `Code.Turns`: straight code takes a state to a state
* `Code.Stops`: straight code comes to an instruction that fails
* `State.Finds`: the slot that a variable names, with its content

## Main results

* `Turns.append`: one piece after the other
* `turns_push`, `turns_pop`, `turns_mov`: the instructions that move values
* `turns_binary`, `stops_binary`: the instructions that combine two registers
-/

namespace Stepwise

open Lowering

/-- An operand of generated code has this form in the program, wherever the code stands. -/
def Operand.Settles (frame : FrameLayout) (o p : Operand) : Prop :=
  ∀ labels op pc, o.settle labels frame op pc = p

theorem settles_imm {frame : FrameLayout} (v : Value) : Operand.Settles frame (.imm v) (.imm v) :=
  fun _ _ _ => rfl

theorem settles_reg {frame : FrameLayout} (r : Reg) : Operand.Settles frame (.reg r) (.reg r) :=
  fun _ _ _ => rfl

theorem settles_slot {frame : FrameLayout} {slot : Slot} {base : Base} {offset : Int}
    (h : slot.start? frame = some (base, offset)) (index : Option Reg) :
    Operand.Settles frame (slot.operand index) (.ptr ⟨base, offset, index⟩) :=
  fun labels op pc => settle_slot h index labels op pc

namespace State

/-- The state at another address and after another number of steps. -/
def reached (s : State) (pc steps : Nat) : State := { s with pc := pc, steps := steps }

section Reached

variable (s : State) (pc steps : Nat)

/-- What a state reads does not depend on the address and the steps behind it. -/
theorem read_reached (o : Operand) : (s.reached pc steps).read o = s.read o := by
  cases o <;> rfl

theorem write_reached {o : Operand} {v : Value} {s' : State} (h : s.write o v = .ok s') :
    (s.reached pc steps).write o v = .ok (s'.reached pc steps) := by
  cases o with
  | reg r =>
    cases h
    rfl
  | ptr p =>
    obtain ⟨⟨i, old⟩, hlocate, h⟩ := bind_eq_ok.mp h
    obtain ⟨new, hnew, ⟨⟩⟩ := bind_eq_ok.mp h
    refine bind_eq_ok.mpr ⟨(i, old), hlocate, bind_eq_ok.mpr ⟨new, hnew, ?_⟩⟩
    cases p.base <;> rfl
  | _ => cases h

end Reached

/-- A slot is found behind the start that base and offset give. -/
theorem locate_eq_ok {s : State} {p : Ptr} {k : Nat} {v : Value} :
    s.locate p = .ok (k, v) ↔ ∃ i, s.indexValue p.index = .ok i ∧
      (Decimal.fitsWord (s.origin p.base + p.offset) ||
        (s.slot? p.base (s.origin p.base + p.offset)).isSome) = true ∧
      s.slot? p.base (s.origin p.base + p.offset + i) = some v ∧
      (s.origin p.base + p.offset + i).toNat = k := by
  rw [locate, bind_eq_ok]
  refine exists_congr fun i => and_congr_right fun _ => ?_
  dsimp only
  split
  next hstart =>
    rw [hstart]
    cases hslot : s.slot? p.base (s.origin p.base + p.offset + i) with
    | none => simp
    | some u => simp [and_comm]
  next hstart => simp [hstart]

/-- A write does not change which slots there are. -/
theorem isSome_slot?_setSlot (s : State) (base base' : Base) (k : Nat) (w : Value) (i : Int) :
    ((s.setSlot base k w).slot? base' i).isSome = (s.slot? base' i).isSome := by
  have hsize : ((s.setSlot base k w).region base').size = (s.region base').size := by
    cases base <;> cases base' <;> simp [setSlot, region]
  unfold slot?
  split
  · rw [getElem?_def, getElem?_def]
    simp only [apply_dite Option.isSome, Option.isSome_some, Option.isSome_none, hsize]
  · rfl

/-- The written slot is found with what was written. -/
theorem locate_setSlot {s : State} {p : Ptr} {k : Nat} {old : Value}
    (h : s.locate p = .ok (k, old)) (w : Value) :
    (s.setSlot p.base k w).locate p = .ok (k, w) := by
  obtain ⟨i, hi, hstart, hslot, rfl⟩ := locate_eq_ok.mp h
  refine locate_eq_ok.mpr ⟨i, ?_, ?_, ?_, by rw [origin_setSlot]⟩
  · exact (Target.sameControl_setSlot s p.base _ w).indexValue.trans hi
  · rw [origin_setSlot, isSome_slot?_setSlot, hstart]
  · rw [origin_setSlot]
    exact slot?_setSlot_self (by rw [hslot]; rfl)

/-- A variable, or the element of an array that a register counts, lies in slot `k` of a region,
which holds `v`. -/
def Finds (s : State) (frame : FrameLayout) (slot : Slot) (index : Option Reg) (base : Base)
    (k : Nat) (v : Value) : Prop :=
  ∃ offset, slot.start? frame = some (base, offset) ∧ s.locate ⟨base, offset, index⟩ = .ok (k, v)

section Finds

variable {s : State} {frame : FrameLayout} {slot : Slot} {index : Option Reg} {base : Base}
  {offset : Int} {k : Nat} {v w old : Value}

/-- A variable is found where it starts. -/
theorem finds_of_region (hstart : slot.start? frame = some (base, offset))
    (hk : (s.origin base : Int) + offset = k) (hv : (s.region base)[k]? = some v) :
    s.Finds frame slot none base k v := by
  have hslot : s.slot? base (s.origin base + offset) = some v := by
    rw [hk, slot?, if_pos (Int.natCast_nonneg k), Int.toNat_natCast, hv]
  refine ⟨offset, hstart, locate_eq_ok.mpr ⟨0, rfl, ?_, ?_, ?_⟩⟩
  · rw [hslot, Option.isSome_some, Bool.or_true]
  · rw [Int.add_zero, hslot]
  · rw [Int.add_zero, hk, Int.toNat_natCast]

/-- A write into a found slot converts to the type of the slot. -/
theorem Finds.write (h : s.Finds frame slot index base k old) (hw : coerce old.ty v = .ok w) :
    ∃ p, Operand.Settles frame (slot.operand index) p ∧ s.write p v = .ok (s.setSlot base k w) ∧
      (s.setSlot base k w).read p = .ok w := by
  obtain ⟨offset, hstart, hlocate⟩ := h
  refine ⟨_, settles_slot hstart index, ?_, ?_⟩
  · exact bind_eq_ok.mpr ⟨_, hlocate, bind_eq_ok.mpr ⟨w, liftConversion_eq_ok.mpr hw, rfl⟩⟩
  · exact map_eq_ok.mpr ⟨_, locate_setSlot hlocate w, rfl⟩

end Finds

end State

/-- **Straight code takes a state to a state.** A machine in state `s` that comes to the code runs
through it, and is then in state `s'`, at the end of the code. -/
def Code.Turns (frame : FrameLayout) (code : Code) (s s' : State) : Prop :=
  ∀ (σ : Type) (m : Machine σ) (labels : Table Nat) (pc steps : Nat),
    m.state = s.reached pc steps → Placed ⟨m.image.code, labels⟩ frame pc code →
    ∃ m', Machine.Steps code.size m m' ∧ m'.image = m.image ∧ m'.hosts = m.hosts ∧
      m'.hooks = m.hooks ∧ m'.state = s'.reached (pc + code.size) (steps + code.size)

namespace Code.Turns

variable {frame : FrameLayout} {c d : Code} {s s' s'' : State}

theorem nil : Turns frame [] s s :=
  fun _ m _ _ _ hm _ => ⟨m, .refl m, rfl, rfl, rfl, hm⟩

/-- **One piece after the other.** -/
theorem append (h : Turns frame c s s') (h' : Turns frame d s' s'') :
    Turns frame (c ++ d) s s'' := by
  intro σ m labels pc steps hm hplaced
  obtain ⟨hc, hd⟩ := (placed_append pc c d).mp hplaced
  obtain ⟨m₁, hsteps₁, himage₁, hhosts₁, hhooks₁, hm₁⟩ := h σ m labels pc steps hm hc
  rw [← himage₁] at hd
  obtain ⟨m₂, hsteps₂, himage₂, hhosts₂, hhooks₂, hm₂⟩ := h' σ m₁ labels _ _ hm₁ hd
  rw [Code.size_append]
  refine ⟨m₂, hsteps₁.trans hsteps₂, himage₂.trans himage₁, hhosts₂.trans hhosts₁,
    hhooks₂.trans hhooks₁, ?_⟩
  rw [hm₂, Nat.add_assoc, Nat.add_assoc]

theorem located {loc : Location} (h : Turns frame c s s') :
    Turns frame (Code.located loc c) s s' := by
  intro σ m labels pc steps hm hplaced
  rw [Code.size_located]
  exact h σ m labels pc steps hm ((placed_located pc loc c).mp hplaced)

end Code.Turns

/-- **Straight code stops with a fault.** A machine in state `s` that comes to the code executes
some of its instructions, and the next one fails. -/
def Code.Stops (frame : FrameLayout) (code : Code) (s : State) (e : Fault) : Prop :=
  ∀ (σ : Type) (m : Machine σ) (labels : Table Nat) (pc steps : Nat),
    m.state = s.reached pc steps → Placed ⟨m.image.code, labels⟩ frame pc code →
    ∃ k m', k < code.size ∧ Machine.Steps k m m' ∧ m'.state.pc = pc + k ∧
      m'.executeNext = .error e m'

namespace Code.Stops

variable {frame : FrameLayout} {c d : Code} {s s' : State} {e : Fault}

/-- What comes behind the fault does not matter. -/
theorem append (h : Stops frame c s e) : Stops frame (c ++ d) s e := by
  intro σ m labels pc steps hm hplaced
  obtain ⟨k, m', hk, hrest⟩ := h σ m labels pc steps hm ((placed_append pc c d).mp hplaced).1
  refine ⟨k, m', ?_, hrest⟩
  rw [Code.size_append]
  omega

/-- The fault comes behind code that goes through. -/
theorem after (h : Turns frame c s s') (h' : Stops frame d s' e) : Stops frame (c ++ d) s e := by
  intro σ m labels pc steps hm hplaced
  obtain ⟨hc, hd⟩ := (placed_append pc c d).mp hplaced
  obtain ⟨m₁, hsteps₁, himage₁, -, -, hm₁⟩ := h σ m labels pc steps hm hc
  rw [← himage₁] at hd
  obtain ⟨k, m₂, hk, hsteps₂, hpc, hfail⟩ := h' σ m₁ labels _ _ hm₁ hd
  refine ⟨c.size + k, m₂, ?_, hsteps₁.trans hsteps₂, by rw [hpc, Nat.add_assoc], hfail⟩
  rw [Code.size_append]
  omega

end Code.Stops

section Instructions

variable {frame : FrameLayout} {s s' : State} {i : Instr} {o o' p p' : Operand} {v : Value}

/-- One instruction takes a state to another, if its operation does so at every address. -/
theorem turns_instr (operation : Operation)
    (hd : ∀ labels pc (j : Instr), j.op = i.op →
      j.dest = i.dest.map (Operand.settle labels frame i.op pc) →
      j.src = i.src.map (Operand.settle labels frame i.op pc) → j.decode = .ok operation)
    (ht : ∀ {σ : Type} (hosts : Table (HostFunction σ)) (j : Instr) (pc steps : Nat) (w : σ),
      Machine.transition hosts j operation (s.reached pc steps) w =
        .ok (s'.reached (pc + 1) (steps + 1), w)) :
    Code.Turns frame [.instr i] s s' := by
  rintro σ m labels pc steps hm ⟨hplaced, -⟩
  obtain ⟨j, hj, hop, hdest, hsrc, -⟩ := exists_of_placed hplaced
  have hpc : m.state.pc = pc := congrArg State.pc hm
  have hstep := Machine.executeNext_eq_ok_iff.mpr ⟨j, operation, _, _, hpc ▸ hj,
    hd labels pc j hop hdest hsrc, hm ▸ ht m.hosts j pc steps m.world, rfl⟩
  exact ⟨_, .one hstep, rfl, rfl, rfl, rfl⟩

theorem turns_push (hi : Target.Reads i .push (some o) none) (ho : Operand.Settles frame o p)
    (hv : s.read p = .ok v) : Code.Turns frame [.instr i] s (s.push v) := by
  obtain ⟨hop, hdest, hsrc⟩ := hi
  refine turns_instr (.push p) ?_ ?_
  · intro labels pc j h₁ h₂ h₃
    simp_all [Instr.decode, ho labels .push pc]
  · intro σ hosts j pc steps w
    exact bind_eq_ok.mpr ⟨v, (s.read_reached pc steps p).trans hv, rfl⟩

theorem turns_pop {x : Reg} {rest : Array Value} (hs : s.stack = rest.push v) :
    Code.Turns frame [.instr (.pop (.reg x))] s
      { s with stack := rest, registers := s.registers.set x v } := by
  refine turns_instr (.pop (.reg x)) ?_ ?_
  · intro labels pc j h₁ h₂ h₃
    simp_all [Instr.decode, Instr.pop, Instr.unary, Operand.settle]
  · intro σ hosts j pc steps w
    simp [Machine.transition, Machine.dropOne, State.write, State.setRegister, Machine.advance,
      State.reached, hs, bind, Except.bind]

theorem turns_mov (hi : Target.Reads i .mov (some o) (some o')) (ho : Operand.Settles frame o p)
    (ho' : Operand.Settles frame o' p') (hv : s.read p' = .ok v) (hw : s.write p v = .ok s') :
    Code.Turns frame [.instr i] s s' := by
  obtain ⟨hop, hdest, hsrc⟩ := hi
  refine turns_instr (.move p p') ?_ ?_
  · intro labels pc j h₁ h₂ h₃
    simp_all [Instr.decode, ho labels .mov pc, ho' labels .mov pc]
  · intro σ hosts j pc steps w
    exact bind_eq_ok.mpr ⟨v, (s.read_reached pc steps p').trans hv,
      bind_eq_ok.mpr ⟨_, s.write_reached pc steps hw, rfl⟩⟩

section Binary

variable {op : OpCode} {x y : Reg} (hop : Target.isBinary op = true)

include hop

/-- An operation on two registers replaces the first one. -/
theorem turns_binary (hv : alu op (s.registers.get x) (s.registers.get y) = .ok v) :
    Code.Turns frame [.instr (.binary op (.reg x) (.reg y))] s (s.setRegister x v) := by
  refine turns_instr (.compute op (.reg x) (.reg y)) (Target.decode_binary hop) ?_
  intro σ hosts j pc steps w
  refine bind_eq_ok.mpr ⟨_, rfl, bind_eq_ok.mpr ⟨_, rfl, bind_eq_ok.mpr ⟨v, ?_, rfl⟩⟩⟩
  exact liftArithmetic_eq_ok.mpr hv

/-- An operation on two registers that has no result. -/
theorem stops_binary {cause : ArithmeticError}
    (hv : alu op (s.registers.get x) (s.registers.get y) = .error cause) :
    Code.Stops frame [.instr (.binary op (.reg x) (.reg y))] s (.arithmetic cause) := by
  rintro σ m labels pc steps hm ⟨hplaced, -⟩
  obtain ⟨j, hj, hj₁, hj₂, hj₃, -⟩ := exists_of_placed hplaced
  have hpc : m.state.pc = pc := congrArg State.pc hm
  refine ⟨0, m, Nat.zero_lt_one, .refl m, hpc, Machine.executeNext_eq_error_iff.mpr ⟨rfl, .inr ?_⟩⟩
  refine ⟨j, hpc ▸ hj, .inr ⟨_, Target.decode_binary hop labels pc j hj₁ hj₂ hj₃, ?_⟩⟩
  rw [hm]
  refine bind_eq_error.mpr (.inr ⟨_, rfl, bind_eq_error.mpr (.inr ⟨_, rfl, ?_⟩)⟩)
  exact bind_eq_error.mpr (.inl (congrArg liftArithmetic hv))

end Binary

/-- A move into a found slot leaves the converted value there. -/
theorem turns_store {slot : Slot} {index : Option Reg} {base : Base} {k : Nat} {w old : Value}
    (hi : Target.Reads i .mov (some (slot.operand index)) (some o)) (ho : Operand.Settles frame o p)
    (hv : s.read p = .ok v) (hold : s.Finds frame slot index base k old)
    (hw : coerce old.ty v = .ok w) : Code.Turns frame [.instr i] s (s.setSlot base k w) := by
  obtain ⟨dest, hdest, hwrite, -⟩ := hold.write hw
  exact turns_mov hi hdest ho hv hwrite

end Instructions

end Stepwise
