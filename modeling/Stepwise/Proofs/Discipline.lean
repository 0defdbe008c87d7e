import Mathlib
import Stepwise.Proofs.Layout
import Stepwise.Proofs.Placement

/-!
# The height of the stack

The height of the stack at a place of a function does not depend on the way there. It is one, for
the link slot, plus what the instructions in front of the place add, read straight down the code:
jumps go only between places of equal height, and a call takes its arguments with it. The same
holds of the number of slots that are reserved for variables.

This module defines both counts, says what an instruction may do at a place with given counts, and
proves the rules for pieces of generated code that the proofs about lowering use.

## Main definitions

* `Instr.rise`, `Instr.reserves`: what an instruction adds to the two counts
* `Routine`: a function in an assembled program, with its counts at each address
* `Laid`: a piece of generated code in a routine, with the counts at its start
* `Admits`, `Admitted`: an instruction, or each of a piece of code, keeps the discipline
-/

namespace Stepwise

/-! ## What code adds to the counts -/

/-- What an instruction adds to the height of the stack. A call takes its arguments off, and the
function that it enters leaves nothing behind. -/
def Instr.rise (i : Instr) : Int :=
  match i.op, i.src with
  | .push, _ => 1
  | .pop, _ => -1
  | .call, some (.imm (.int n)) => -n.toInt
  | _, _ => 0

/-- Whether an instruction reserves the slot of a variable. Only these pushes have a remark. -/
def Instr.reserves (i : Instr) : Bool := i.op = .push && i.comment.isSome

@[simp]
theorem Instr.rise_located (i : Instr) (loc : Location) : (i.located loc).rise = i.rise := by
  unfold Instr.located
  split <;> rfl

@[simp]
theorem Instr.reserves_located (i : Instr) (loc : Location) :
    (i.located loc).reserves = i.reserves := by
  unfold Instr.located
  split <;> rfl

namespace Code

/-- What code adds to the height of the stack. -/
def rise (c : Code) : Int := (c.instrs.map Instr.rise).sum

/-- The number of slots that code reserves. -/
def reservations (c : Code) : Nat := c.instrs.countP Instr.reserves

@[simp]
theorem rise_nil : rise [] = 0 := rfl

@[simp]
theorem rise_cons_label (l : String) (c : Code) : rise (.label l :: c) = rise c := rfl

@[simp]
theorem rise_cons_instr (i : Instr) (c : Code) : rise (.instr i :: c) = i.rise + rise c := by
  simp [rise]

@[simp]
theorem rise_append (c d : Code) : rise (c ++ d) = rise c + rise d := by
  simp [rise]

@[simp]
theorem rise_located (loc : Location) (c : Code) : rise (located loc c) = rise c := by
  induction c with
  | nil => rfl
  | cons line c ih => cases line <;> simp [ih]

@[simp]
theorem reservations_nil : reservations [] = 0 := rfl

@[simp]
theorem reservations_cons_label (l : String) (c : Code) :
    reservations (.label l :: c) = reservations c := rfl

@[simp]
theorem reservations_cons_instr (i : Instr) (c : Code) :
    reservations (.instr i :: c) = i.reserves.toNat + reservations c := by
  cases h : i.reserves <;> simp [reservations, h, Nat.add_comm]

@[simp]
theorem reservations_append (c d : Code) :
    reservations (c ++ d) = reservations c + reservations d := by
  simp [reservations]

@[simp]
theorem reservations_located (loc : Location) (c : Code) :
    reservations (located loc c) = reservations c := by
  induction c with
  | nil => rfl
  | cons line c ih => cases line <;> simp [ih]

end Code

/-! ## Routines -/

/-- A function in an assembled program: its generated code, the frame of its variables, the address
of its first instruction and the number of its parameters. -/
structure Routine where
  code : Code
  frame : FrameLayout
  entry : Nat
  argc : Nat

namespace Routine

/-- An address lies in the code of a routine. -/
def Holds (f : Routine) (pc : Nat) : Prop := f.entry ≤ pc ∧ pc < f.entry + f.code.size

/-- The height of the stack above the base pointer at an address. -/
def height (f : Routine) (pc : Nat) : Int :=
  1 + ((f.code.instrs.take (pc - f.entry)).map Instr.rise).sum

/-- The number of reserved slots at an address, the link slot among them. -/
def slots (f : Routine) (pc : Nat) : Nat :=
  1 + (f.code.instrs.take (pc - f.entry)).countP Instr.reserves

/-- An address lies in a routine and has these counts. -/
structure At (f : Routine) (h : Int) (r pc : Nat) : Prop where
  holds : f.Holds pc
  height : f.height pc = h
  slots : f.slots pc = r

end Routine

/-- A piece of generated code stands in a routine from an address on, where the counts are `h` and
`r`; the counts at its labels and at its end follow. -/
def Laid (p : Assembled) (f : Routine) : Int → Nat → Nat → Code → Prop
  | h, r, addr, [] => f.At h r addr
  | h, r, addr, .label name :: rest => p.labels.get? name = some addr ∧ Laid p f h r addr rest
  | h, r, addr, .instr i :: rest =>
    f.At h r addr ∧ p.code[addr]?.map Instr.bare = some (i.settle p.labels f.frame addr).bare ∧
      Laid p f (h + i.rise) (r + i.reserves.toNat) (addr + 1) rest

section Laid

variable {p : Assembled} {f : Routine} {h : Int} {r addr : Nat} {c d : Code}

@[simp]
theorem laid_nil : Laid p f h r addr [] ↔ f.At h r addr := Iff.rfl

@[simp]
theorem laid_cons_label {name : String} :
    Laid p f h r addr (.label name :: c) ↔
      p.labels.get? name = some addr ∧ Laid p f h r addr c := Iff.rfl

@[simp]
theorem laid_cons_instr {i : Instr} :
    Laid p f h r addr (.instr i :: c) ↔
      f.At h r addr ∧ p.code[addr]?.map Instr.bare = some (i.settle p.labels f.frame addr).bare ∧
        Laid p f (h + i.rise) (r + i.reserves.toNat) (addr + 1) c := Iff.rfl

/-- The counts at the start of a piece. -/
theorem Laid.start (hl : Laid p f h r addr c) : f.At h r addr := by
  induction c with
  | nil => exact hl
  | cons line c ih =>
    cases line with
    | label name => exact ih hl.2
    | instr i => exact hl.1

/-- A piece is laid if its parts are, the second one with the counts that the first one leaves. -/
@[simp]
theorem laid_append :
    Laid p f h r addr (c ++ d) ↔
      Laid p f h r addr c ∧
        Laid p f (h + c.rise) (r + c.reservations) (addr + c.size) d := by
  induction c generalizing h r addr with
  | nil => simpa using Laid.start
  | cons line c ih =>
    cases line with
    | label name => simp [ih, and_assoc]
    | instr i =>
      simp only [List.cons_append, laid_cons_instr, ih, Code.rise_cons_instr,
        Code.reservations_cons_instr, Code.size_cons_instr, and_assoc]
      rw [← Int.add_assoc, ← Nat.add_assoc r, Nat.add_comm (Code.size c) 1, ← Nat.add_assoc addr]

/-- The counts at the end of a piece. -/
theorem Laid.finish (hl : Laid p f h r addr c) :
    f.At (h + c.rise) (r + c.reservations) (addr + c.size) := by
  have hd : Laid p f h r addr (c ++ []) := by rwa [List.append_nil]
  exact (laid_append.mp hd).2

theorem Laid.size_lt (hl : Laid p f h r addr c) : c.size < f.code.size := by
  have hstart := hl.start.holds.1
  have hend := hl.finish.holds.2
  omega

@[simp]
theorem laid_located {loc : Location} :
    Laid p f h r addr (Code.located loc c) ↔ Laid p f h r addr c := by
  induction c generalizing h r addr with
  | nil => simp
  | cons line c ih =>
    cases line with
    | label name => simp [ih]
    | instr i => simp [ih, Instr.settle_located]

/-- Code that is laid is placed. -/
theorem Laid.placed (hl : Laid p f h r addr c) : Placed p f.frame addr c := by
  induction c generalizing h r addr with
  | nil => trivial
  | cons line c ih =>
    cases line with
    | label name => exact ⟨hl.1, ih hl.2⟩
    | instr i => exact ⟨hl.2.1, ih hl.2.2⟩

end Laid

/-- The code of a routine is laid, up to its last instruction. -/
theorem laid_of_placed {p : Assembled} {f : Routine} {pre c post : Code}
    (hp : Placed p f.frame f.entry f.code) (hc : f.code = pre ++ (c ++ post))
    (hpost : 0 < post.size) :
    Laid p f (1 + pre.rise) (1 + pre.reservations) (f.entry + pre.size) c := by
  -- the counts at an address are those of the code in front of it
  have hat (pre post : Code) (hc : f.code = pre ++ post) (hpost : 0 < post.size) :
      f.At (1 + pre.rise) (1 + pre.reservations) (f.entry + pre.size) := by
    have htake : f.code.instrs.take (f.entry + pre.size - f.entry) = pre.instrs := by
      rw [Nat.add_sub_cancel_left, hc, Code.instrs_append]
      exact List.take_left
    refine ⟨⟨Nat.le_add_right _ _, ?_⟩, ?_, ?_⟩
    · rw [hc, Code.size_append]
      omega
    · rw [Routine.height, htake]
      rfl
    · rw [Routine.slots, htake]
      rfl
  induction c generalizing pre with
  | nil => exact hat pre post hc hpost
  | cons line c ih =>
    have hc' : f.code = (pre ++ [line]) ++ (c ++ post) := by rw [hc]; simp
    have hrest := ih hc'
    rw [hc, placed_append] at hp
    cases line with
    | label name =>
      refine ⟨hp.2.1, ?_⟩
      simpa using hrest
    | instr i =>
      refine ⟨hat pre _ hc ?_, hp.2.1, ?_⟩
      · rw [Code.size_append]
        omega
      · simpa [Int.add_assoc, Nat.add_assoc] using hrest

/-! ## What an instruction may do -/

/-- A linked program: its code, its global region and its routines. -/
structure Setting where
  program : Assembled
  globals : GlobalLayout
  routines : List Routine

namespace Setting

variable (S : Setting) (f : Routine)

/-- An operand of generated code can be read where the height is `h`, as far as it has no index. -/
def Reads (h : Int) : Operand → Prop
  | .imm _ | .reg _ => True
  | .ptr ⟨.global, offset, none⟩ => 0 ≤ offset ∧ offset < S.globals.values.size
  | .ptr ⟨.global, _, some x⟩ => x = .ix
  | .var key none => ∃ e, f.frame.entries.get? key = some e ∧ -(f.argc : Int) ≤ e.offset ∧ e.offset < h
  | .var key (some x) => x = .ix ∧ ∃ e, f.frame.entries.get? key = some e
  | _ => False

/-- An operand of generated code can be written. -/
def Writes (h : Int) (o : Operand) : Prop := S.Reads f h o ∧ ∀ v, o ≠ .imm v

/-- A label names an address of the routine with these counts. -/
def Lands (h : Int) (r : Nat) (l : String) : Prop :=
  ∃ addr, S.program.labels.get? l = some addr ∧ f.At h r addr

/-- What is called takes so many arguments. A function is called by the label that it starts with. -/
def Calls (argc : Nat) : Operand → Prop
  | .host _ => True
  | .label l => ∃ g ∈ S.routines, S.program.labels.get? l = some g.entry ∧ g.argc = argc ∧
    g.code.head? = some (.label l)
  | _ => False

/-- An instruction of generated code keeps the discipline at an address with counts `h` and `r`:
its operands are there, it takes nothing off the stack that belongs to a variable, a jump goes to a
place with the same counts, a reservation pushes the next slot, and a call of a function of the
program has its name as a remark. -/
def Admits (h : Int) (r addr : Nat) (i : Instr) : Prop :=
  match i.op, i.dest, i.src with
  | .add, some d, some s | .sub, some d, some s | .mul, some d, some s | .div, some d, some s
  | .and, some d, some s | .or, some d, some s | .xor, some d, some s | .cp, some d, some s
  | .mov, some d, some s => S.Writes f h d ∧ S.Reads f h s
  | .inc, some d, none | .dec, some d, none => S.Writes f h d
  | .ldi, some (.reg _), some (.imm _) => True
  | .push, some s, none =>
    S.Reads f h s ∧ (i.comment.isSome → h = r ∧ ∃ v, s = .imm v ∧ f.frame.Owns r v.ty)
  | .pop, some (.reg _), none => r < h
  | .rjmp, some (.label l), none | .rjmp, some (.label l), some (.reg _) => S.Lands f h r l
  | .rjmp, some (.imm (.int n)), some (.reg _) => n = 2 ∧ f.At h r (addr + 2)
  | .call, some t, some (.imm (.int n)) =>
    ∃ argc : Nat, n.toInt = argc ∧ r + argc ≤ h ∧ S.Calls argc t ∧
      ∀ l, t = .label l → i.comment = some l
  | .ret, none, none => True
  | _, _, _ => False

/-- Each instruction of a piece of code keeps the discipline. -/
def Admitted : Int → Nat → Nat → Code → Prop
  | _, _, _, [] => True
  | h, r, addr, .label _ :: rest => Admitted h r addr rest
  | h, r, addr, .instr i :: rest =>
    S.Admits f h r addr i ∧ Admitted (h + i.rise) (r + i.reserves.toNat) (addr + 1) rest

variable {S f} {h : Int} {r addr : Nat} {c d : Code}

@[simp]
theorem admitted_nil : S.Admitted f h r addr [] := trivial

@[simp]
theorem admitted_cons_label {name : String} :
    S.Admitted f h r addr (.label name :: c) ↔ S.Admitted f h r addr c := Iff.rfl

@[simp]
theorem admitted_cons_instr {i : Instr} :
    S.Admitted f h r addr (.instr i :: c) ↔
      S.Admits f h r addr i ∧ S.Admitted f (h + i.rise) (r + i.reserves.toNat) (addr + 1) c :=
  Iff.rfl

@[simp]
theorem admitted_append :
    S.Admitted f h r addr (c ++ d) ↔
      S.Admitted f h r addr c ∧
        S.Admitted f (h + c.rise) (r + c.reservations) (addr + c.size) d := by
  induction c generalizing h r addr with
  | nil => simp
  | cons line c ih =>
    cases line with
    | label name => simp [ih]
    | instr i =>
      simp only [List.cons_append, admitted_cons_instr, ih, Code.rise_cons_instr,
        Code.reservations_cons_instr, Code.size_cons_instr, and_assoc]
      rw [← Int.add_assoc, ← Nat.add_assoc r, Nat.add_comm (Code.size c) 1, ← Nat.add_assoc addr]

@[simp]
theorem admits_located {loc : Location} {i : Instr} :
    S.Admits f h r addr (i.located loc) ↔ S.Admits f h r addr i := by
  unfold Instr.located
  split <;> rfl

@[simp]
theorem admitted_located {loc : Location} :
    S.Admitted f h r addr (Code.located loc c) ↔ S.Admitted f h r addr c := by
  induction c generalizing h r addr with
  | nil => simp
  | cons line c ih =>
    cases line with
    | label name => simp [ih]
    | instr i => simp [ih, admits_located]

/-! ## The instructions that generated code uses -/

variable {o : Operand} {x : Reg}

theorem Reads.mono {h' : Int} (ho : S.Reads f h o) (hh : h ≤ h') : S.Reads f h' o := by
  unfold Reads at ho ⊢
  split at ho
  case h_5 =>
    obtain ⟨e, he, hlow, hhigh⟩ := ho
    exact ⟨e, he, hlow, hhigh.trans_le hh⟩
  all_goals exact ho

theorem Writes.mono {h' : Int} (ho : S.Writes f h o) (hh : h ≤ h') :
    S.Writes f h' o := ⟨ho.1.mono hh, ho.2⟩

@[simp]
theorem reads_imm (v : Value) : S.Reads f h (.imm v) := trivial

@[simp]
theorem reads_reg (x : Reg) : S.Reads f h (.reg x) := trivial

@[simp]
theorem writes_reg (x : Reg) : S.Writes f h (.reg x) := ⟨trivial, by simp⟩

@[simp]
theorem admits_push : S.Admits f h r addr (.push o) ↔ S.Reads f h o := by
  simp [Admits, Instr.push, Instr.unary]

@[simp]
theorem admits_pop : S.Admits f h r addr (.pop (.reg x)) ↔ (r : Int) < h := by
  simp [Admits, Instr.pop, Instr.unary]

@[simp]
theorem admits_mov {o' : Operand} :
    S.Admits f h r addr (.mov o o') ↔ S.Writes f h o ∧ S.Reads f h o' := by
  simp [Admits, Instr.mov, Instr.binary]

@[simp]
theorem admits_ldi {v : Value} : S.Admits f h r addr (.ldi x v) := by
  simp [Admits, Instr.ldi, Instr.binary]

@[simp]
theorem admits_step {op : UnaryOp} :
    S.Admits f h r addr (.unary (Lowering.stepCode op) o) ↔ S.Writes f h o := by
  cases op <;> simp [Admits, Lowering.stepCode, Instr.unary]

@[simp]
theorem admits_ret : S.Admits f h r addr .ret := by
  simp [Admits, Instr.ret, Instr.nullary]

@[simp]
theorem admits_rjmp {l : String} :
    S.Admits f h r addr (.rjmp (.label l)) ↔ S.Lands f h r l := by
  simp [Admits, Instr.rjmp, Instr.unary]

@[simp]
theorem admits_rjmpIfZero {l : String} :
    S.Admits f h r addr (.rjmpIfZero (.label l) x) ↔ S.Lands f h r l := by
  simp [Admits, Instr.rjmpIfZero, Instr.binary]

@[simp]
theorem admits_skip :
    S.Admits f h r addr (.rjmpIfZero (.imm (.int 2)) x) ↔ f.At h r (addr + 2) := by
  simp [Admits, Instr.rjmpIfZero, Instr.binary]

end Setting

/-! What they add to the counts. -/

section Counts

variable {o o' : Operand} {x : Reg} {v : Value} {comment : String} {loc : Location} {i : Instr}

@[simp]
theorem Instr.rise_withComment : (i.withComment comment).rise = i.rise := rfl

@[simp]
theorem Instr.rise_push : (Instr.push o).rise = 1 := rfl

@[simp]
theorem Instr.rise_pop : (Instr.pop o).rise = -1 := rfl

@[simp]
theorem Instr.rise_mov : (Instr.mov o o').rise = 0 := rfl

@[simp]
theorem Instr.rise_ldi : (Instr.ldi x v).rise = 0 := rfl

@[simp]
theorem Instr.rise_rjmp : (Instr.rjmp o).rise = 0 := rfl

@[simp]
theorem Instr.rise_rjmpIfZero : (Instr.rjmpIfZero o x).rise = 0 := rfl

@[simp]
theorem Instr.rise_call {n : Nat} : (Instr.call o n).rise = -(Int64.ofNat n).toInt := rfl

@[simp]
theorem Instr.rise_ret : Instr.ret.rise = 0 := rfl

@[simp]
theorem Instr.rise_step {op : UnaryOp} : (Instr.unary (Lowering.stepCode op) o).rise = 0 := by
  cases op <;> rfl

@[simp]
theorem Instr.reserves_push : (Instr.push o).reserves = false := rfl

@[simp]
theorem Instr.reserves_pop : (Instr.pop o).reserves = false := rfl

@[simp]
theorem Instr.reserves_mov : (Instr.mov o o').reserves = false := rfl

@[simp]
theorem Instr.reserves_mov_withComment : ((Instr.mov o o').withComment comment).reserves = false :=
  rfl

@[simp]
theorem Instr.reserves_call_withComment {n : Nat} :
    ((Instr.call o n).withComment comment).reserves = false := rfl

@[simp]
theorem Instr.reserves_ldi : (Instr.ldi x v).reserves = false := rfl

@[simp]
theorem Instr.reserves_rjmp : (Instr.rjmp o).reserves = false := rfl

@[simp]
theorem Instr.reserves_rjmpIfZero : (Instr.rjmpIfZero o x).reserves = false := rfl

@[simp]
theorem Instr.reserves_ret : Instr.ret.reserves = false := rfl

@[simp]
theorem Instr.reserves_step {op : UnaryOp} :
    (Instr.unary (Lowering.stepCode op) o).reserves = false := by
  cases op <;> rfl

end Counts

/-- Code leaves so many values more on the stack and reserves no slot. -/
def Code.Leaves (c : Code) (n : Int) : Prop := c.rise = n ∧ c.reservations = 0

@[simp]
theorem Code.leaves_located {loc : Location} {c : Code} {n : Int} :
    (Code.located loc c).Leaves n ↔ c.Leaves n := by
  simp [Code.Leaves]

/-- A piece that leaves so many values is followed by one that starts with them. -/
theorem Laid.split {p : Assembled} {f : Routine} {h n : Int} {r addr : Nat} {c d : Code}
    (hl : Laid p f h r addr (c ++ d)) (hc : c.Leaves n) :
    Laid p f h r addr c ∧ Laid p f (h + n) r (addr + c.size) d := by
  rwa [laid_append, hc.1, hc.2] at hl

theorem Setting.admitted_append_of_leaves {S : Setting} {f : Routine} {h n : Int} {r addr : Nat}
    {c d : Code} (hc : c.Leaves n) :
    S.Admitted f h r addr (c ++ d) ↔
      S.Admitted f h r addr c ∧ S.Admitted f (h + n) r (addr + c.size) d := by
  rw [admitted_append, hc.1, hc.2, Nat.add_zero]

theorem Code.Leaves.append {c d : Code} {m n : Int} (hc : c.Leaves m) (hd : d.Leaves n) :
    (c ++ d).Leaves (m + n) := by
  simp [Code.Leaves, hc.1, hc.2, hd.1, hd.2]

/-! Machine words bound the number of arguments of a call, and so the code that the counts are known
of. -/

/-- Code leaves so many values if its size fits a machine word. -/
def Code.Settles (c : Code) (n : Int) : Prop := c.size < 2 ^ 63 → c.Leaves n

theorem Code.settles_located {loc : Location} {c : Code} {n : Int} :
    (Code.located loc c).Settles n ↔ c.Settles n := by
  simp [Code.Settles]

theorem Code.Settles.then {c d : Code} (hc : c.Settles 0) (hd : d.Settles 0) :
    (c ++ d).Settles 0 := by
  intro hsize
  rw [Code.size_append] at hsize
  exact (hc (by omega)).append (hd (by omega))

section Settles

variable {S : Setting} {f : Routine} {h : Int} {r addr : Nat} {c d : Code}
  (hsize : f.code.size < 2 ^ 63) (hc : c.Settles 0)

include hsize hc

/-- A piece that leaves the stack as it was is followed by one with the same counts. -/
theorem Laid.seq (hl : Laid S.program f h r addr (c ++ d)) :
    Laid S.program f h r addr c ∧ Laid S.program f h r (addr + c.size) d := by
  have hleaves := hc ((laid_append.mp hl).1.size_lt.trans hsize)
  simpa using hl.split hleaves

theorem Setting.admitted_seq (hl : Laid S.program f h r addr (c ++ d))
    (hfirst : Laid S.program f h r addr c → S.Admitted f h r addr c)
    (hrest : Laid S.program f h r (addr + c.size) d → S.Admitted f h r (addr + c.size) d) :
    S.Admitted f h r addr (c ++ d) := by
  obtain ⟨hl₁, hl₂⟩ := Laid.seq hsize hc hl
  rw [admitted_append_of_leaves (hc (hl₁.size_lt.trans hsize)), Int.add_zero]
  exact ⟨hfirst hl₁, hrest hl₂⟩

end Settles

end Stepwise
