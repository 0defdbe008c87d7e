import Mathlib
import Stepwise.Proofs.Subexpressions

/-!
# What code knows of types

At every address of a function the code knows something of the values that it works with: the types
of those that it has put on the stack on top of the variables, and of some that are in registers.
This knowledge, a *stage*, is read straight down the code. A label forgets the registers, except for
the one that holds a truth value where two ways meet.

This module defines stages and says what an instruction may do at a stage.

## Main definitions

* `Temp`, `Stage`: a value on the stack, and what is known at an address
* `TypedSetting.after`, `TypedSetting.walk`, `TypedSetting.stage`: the stages of code
* `Staged`: a piece of generated code in a routine, with the stage at its start
* `Place`, `Sees`: the types of operands
* `Accepts`, `Accepted`: an instruction, or each of a piece of code, works with values of the right
  types

## Main results

* `checks_of_accepted`: what is accepted of a piece of code holds at each of its addresses
* `length_temps_stage`: a stage has the values that lie above the slots of variables
-/

namespace Stepwise

open Lowering

/-! ## Stages -/

/-- A value that code has put on the stack: its type, if it is known, and the address behind the
instruction that pushed it. -/
structure Temp where
  ty : Option Ty
  born : Nat

/-- What is known at an address: the number of reserved slots, the values on top of them, the
topmost first, and the types of the values in registers. -/
structure Stage where
  slots : Nat
  temps : List Temp
  regs : Reg → Option Ty

namespace Stage

/-- The stage where a function starts. -/
def start : Stage := ⟨1, [], fun _ => none⟩

/-- The stage without knowledge of registers. -/
def forget (t : Stage) : Stage := { t with regs := fun _ => none }

/-- The stage at a label: only `R2` is carried over. -/
def atLabel (t : Stage) : Stage := { t with regs := fun r => if r = .r2 then t.regs r else none }

/-- The stage after a register is set. -/
def set (t : Stage) (r : Reg) (ty : Option Ty) : Stage :=
  { t with regs := Function.update t.regs r ty }

/-- The stage after a push. A register that is pushed has done its work. -/
def push (t : Stage) (o : Operand) (temp : Temp) : Stage where
  slots := t.slots
  temps := temp :: t.temps
  regs := match o with
    | .reg r => Function.update t.regs r none
    | _ => t.regs

/-- The stage after a pop into a register. -/
def pop (t : Stage) (r : Reg) : Stage where
  slots := t.slots
  temps := t.temps.tail
  regs := Function.update t.regs r (t.temps.head?.bind Temp.ty)

/-- The stage after a call that takes so many arguments. -/
def call (t : Stage) (argc : Nat) (result : Option Ty) : Stage where
  slots := t.slots
  temps := t.temps.drop argc
  regs := Function.update (fun _ => none) .rv result

section Fields

variable (t : Stage) (r : Reg) (ty : Option Ty) (o : Operand) (temp : Temp) (argc : Nat)

@[simp]
theorem temps_forget : t.forget.temps = t.temps := rfl

@[simp]
theorem slots_forget : t.forget.slots = t.slots := rfl

@[simp]
theorem regs_forget : t.forget.regs r = none := rfl

@[simp]
theorem temps_atLabel : t.atLabel.temps = t.temps := rfl

@[simp]
theorem slots_atLabel : t.atLabel.slots = t.slots := rfl

@[simp]
theorem regs_atLabel_r2 : t.atLabel.regs .r2 = t.regs .r2 := rfl

@[simp]
theorem temps_set : (t.set r ty).temps = t.temps := rfl

@[simp]
theorem slots_set : (t.set r ty).slots = t.slots := rfl

@[simp]
theorem regs_set_self : (t.set r ty).regs r = ty := by
  simp [set]

@[simp]
theorem temps_push : (t.push o temp).temps = temp :: t.temps := rfl

@[simp]
theorem slots_push : (t.push o temp).slots = t.slots := rfl

@[simp]
theorem temps_pop : (t.pop r).temps = t.temps.tail := rfl

@[simp]
theorem slots_pop : (t.pop r).slots = t.slots := rfl

@[simp]
theorem regs_pop_self : (t.pop r).regs r = t.temps.head?.bind Temp.ty := by
  simp [pop]

@[simp]
theorem temps_call : (t.call argc ty).temps = t.temps.drop argc := rfl

@[simp]
theorem slots_call : (t.call argc ty).slots = t.slots := rfl

@[simp]
theorem regs_call_rv : (t.call argc ty).regs .rv = ty := by
  simp [call]

variable {t r ty o temp argc}

theorem regs_set_of_ne {x : Reg} (h : x ≠ r) : (t.set r ty).regs x = t.regs x := by
  simp [set, h]

theorem regs_pop_of_ne {x : Reg} (h : x ≠ r) : (t.pop r).regs x = t.regs x := by
  simp [pop, h]

theorem regs_call_of_ne (h : r ≠ .rv) : (t.call argc ty).regs r = none := by
  simp [call, h]

/-- A push of what is not in a register leaves the registers known. -/
theorem regs_push_of_ne (h : ∀ x, o ≠ .reg x) : (t.push o temp).regs = t.regs := by
  cases o with
  | reg x => exact absurd rfl (h x)
  | _ => rfl

/-- A push makes no register known. -/
theorem regs_of_regs_push {x : Ty} (h : (t.push o temp).regs r = some x) : t.regs r = some x := by
  unfold push at h
  split at h
  next y =>
    by_cases hr : r = y
    · subst hr
      simp at h
    · simpa [hr] using h
  · exact h

end Fields

/-- A stage knows no more than another one, and has the same values on the stack. -/
structure Weaker (t t' : Stage) : Prop where
  temps : t.temps = t'.temps
  regs : ∀ {r ty}, t.regs r = some ty → t'.regs r = some ty

theorem Weaker.refl (t : Stage) : t.Weaker t := ⟨rfl, id⟩

theorem Weaker.trans {t t' t'' : Stage} (h : t.Weaker t') (h' : t'.Weaker t'') : t.Weaker t'' :=
  ⟨h.temps.trans h'.temps, fun hr => h'.regs (h.regs hr)⟩

theorem weaker_atLabel (t : Stage) : t.atLabel.Weaker t := by
  refine ⟨rfl, fun {r ty} h => ?_⟩
  simp only [atLabel] at h
  split at h
  · exact h
  · cases h

end Stage

/-- The type of the result of an operation of the machine. -/
def aluType (op : OpCode) (a b : Ty) : Option Ty :=
  match op with
  | .add => (binaryType .add a b).toOption
  | .sub => (binaryType .sub a b).toOption
  | .mul => (binaryType .mul a b).toOption
  | .div => (binaryType .div a b).toOption
  | .and => (binaryType .bitAnd a b).toOption
  | .or => (binaryType .bitOr a b).toOption
  | .xor => (binaryType .bitXor a b).toOption
  | .cp => (binaryType .eq a b).toOption.map fun _ => .int
  | _ => none

/-- What the source says of a function: the types of its parameters and of its result, and the
statements and expressions in it. -/
structure Header where
  params : List Ty
  ret : Ty
  contains : Occurrence → Prop
  lowers : Bool → ExprOccurrence → Prop

/-- A linked program with what its source says: the meanings of global names, the host functions,
and the headers of its routines. -/
structure TypedSetting extends Setting where
  names : Table Symbol
  hosts : Table HostDecl
  header : Routine → Header

namespace TypedSetting

variable (S : TypedSetting) (f : Routine)

/-- The type of an operand of generated code. -/
def kind (t : Stage) : Operand → Option Ty
  | .imm v => some v.ty
  | .reg r => t.regs r
  | .ptr ⟨.global, offset, _⟩ => S.globals.values[offset.toNat]?.map Value.ty
  | .var key _ => (f.frame.entries.get? key).map FrameEntry.ty
  | _ => none

/-- The type of the result that a call leaves in `RV`. What a host function leaves is unknown. -/
def result? : Operand → Option Ty
  | .label name =>
    match S.names.get? name with
    | some (.function sig) => if sig.ret = .void then none else some sig.ret
    | _ => none
  | _ => none

/-- The stage behind an instruction. -/
def after (t : Stage) (addr : Nat) (i : Instr) : Stage :=
  if i.reserves then { t with slots := t.slots + 1 }
  else match i.op, i.dest, i.src with
  | .push, some o, _ => t.push o ⟨S.kind f t o, addr + 1⟩
  | .pop, some (.reg r), _ => t.pop r
  | .ldi, some (.reg r), some o | .mov, some (.reg r), some o => t.set r (S.kind f t o)
  | .call, some target, some (.imm (.int n)) => t.call n.toInt.toNat (S.result? target)
  | .rjmp, _, none | .ret, _, _ => t.forget
  | op, some (.reg r), some o =>
    t.set r ((t.regs r).bind fun a => (S.kind f t o).bind fun b => aluType op a b)
  | _, _, _ => t

/-- The stage behind a piece of code. -/
def walk : Stage → Nat → Code → Stage
  | t, _, [] => t
  | t, addr, .label _ :: rest => walk t.atLabel addr rest
  | t, addr, .instr i :: rest => walk (S.after f t addr i) (addr + 1) rest

/-- The stage at an address, read from an earlier one on. -/
def scan : Stage → Nat → Code → Nat → Stage
  | t, _, [], _ => t
  | t, addr, .label _ :: rest, pc => scan t.atLabel addr rest pc
  | t, addr, .instr i :: rest, pc =>
    if addr = pc then t else scan (S.after f t addr i) (addr + 1) rest pc

/-- The stage at an address of a routine. -/
def stage (pc : Nat) : Stage := S.scan f .start f.entry f.code pc

variable {S f} {t : Stage} {addr : Nat}

variable {i : Instr} {loc : Location} {c d : Code}

@[simp]
theorem after_located : S.after f t addr (i.located loc) = S.after f t addr i := by
  unfold Instr.located
  split <;> rfl

@[simp]
theorem walk_nil : S.walk f t addr [] = t := rfl

@[simp]
theorem walk_cons_label {l : String} :
    S.walk f t addr (.label l :: c) = S.walk f t.atLabel addr c := rfl

@[simp]
theorem walk_cons_instr :
    S.walk f t addr (.instr i :: c) = S.walk f (S.after f t addr i) (addr + 1) c := rfl

@[simp]
theorem walk_append :
    S.walk f t addr (c ++ d) = S.walk f (S.walk f t addr c) (addr + c.size) d := by
  induction c generalizing t addr with
  | nil => simp
  | cons line c ih =>
    cases line with
    | label l => simp [ih]
    | instr i => simp [ih, Nat.add_assoc, Nat.add_comm 1]

@[simp]
theorem walk_located : S.walk f t addr (Code.located loc c) = S.walk f t addr c := by
  induction c generalizing t addr with
  | nil => rfl
  | cons line c ih => cases line <;> simp [ih]

/-- The stage at an address behind a piece of code. -/
theorem scan_append {pc : Nat} (h : addr + c.size ≤ pc) :
    S.scan f t addr (c ++ d) pc = S.scan f (S.walk f t addr c) (addr + c.size) d pc := by
  induction c generalizing t addr with
  | nil => rfl
  | cons line c ih =>
    cases line with
    | label l => exact ih h
    | instr i =>
      rw [Code.size_cons_instr] at h
      rw [List.cons_append, scan, if_neg (by omega), ih (by omega), walk_cons_instr,
        Code.size_cons_instr, Nat.add_assoc, Nat.add_comm 1]

theorem scan_weaker : (S.scan f t addr c addr).Weaker t := by
  induction c generalizing t with
  | nil => exact .refl t
  | cons line c ih =>
    cases line with
    | label l => exact ih.trans t.weaker_atLabel
    | instr i =>
      rw [scan, if_pos rfl]
      exact .refl t

/-- Reservations are what adds to the reserved slots. -/
theorem slots_after (i : Instr) : (S.after f t addr i).slots = t.slots + i.reserves.toNat := by
  unfold after
  split
  next h =>
    rw [h]
    rfl
  next h =>
    rw [Bool.eq_false_iff.mpr h]
    split <;> rfl

theorem slots_walk (c : Code) : (S.walk f t addr c).slots = t.slots + c.reservations := by
  induction c generalizing t addr with
  | nil => rfl
  | cons line c ih =>
    cases line with
    | label l =>
      rw [walk_cons_label, ih]
      rfl
    | instr i =>
      rw [walk_cons_instr, ih, slots_after, Code.reservations_cons_instr, Nat.add_assoc]

theorem le_slots_walk (c : Code) : t.slots ≤ (S.walk f t addr c).slots := by
  rw [slots_walk]
  exact Nat.le_add_right _ _

/-! ## Code at its stage -/

/-- A piece of generated code stands in a routine from an address on, where the stage is `t`; the
stages inside it follow. -/
def Staged (S : TypedSetting) (f : Routine) : Stage → Nat → Code → Prop
  | t, addr, [] => (S.stage f addr).Weaker t
  | t, addr, .label name :: rest =>
    S.program.labels.get? name = some addr ∧ Staged S f t.atLabel addr rest
  | t, addr, .instr i :: rest =>
    S.stage f addr = t ∧
      S.program.code[addr]?.map Instr.bare = some (i.settle S.program.labels f.frame addr).bare ∧
      Staged S f (S.after f t addr i) (addr + 1) rest

@[simp]
theorem staged_nil : S.Staged f t addr [] ↔ (S.stage f addr).Weaker t := Iff.rfl

@[simp]
theorem staged_cons_label {name : String} :
    S.Staged f t addr (.label name :: c) ↔
      S.program.labels.get? name = some addr ∧ S.Staged f t.atLabel addr c := Iff.rfl

@[simp]
theorem staged_cons_instr :
    S.Staged f t addr (.instr i :: c) ↔
      S.stage f addr = t ∧
        S.program.code[addr]?.map Instr.bare = some (i.settle S.program.labels f.frame addr).bare ∧
        S.Staged f (S.after f t addr i) (addr + 1) c := Iff.rfl

/-- The stage at the start of a piece is at most the given one. -/
theorem Staged.start (h : S.Staged f t addr c) : (S.stage f addr).Weaker t := by
  induction c generalizing t with
  | nil => exact h
  | cons line c ih =>
    cases line with
    | label l => exact (ih h.2).trans t.weaker_atLabel
    | instr i =>
      rw [h.1]
      exact .refl t

/-- A piece is staged if its parts are, the second one with the stage that the first one leaves. -/
@[simp]
theorem staged_append :
    S.Staged f t addr (c ++ d) ↔
      S.Staged f t addr c ∧ S.Staged f (S.walk f t addr c) (addr + c.size) d := by
  induction c generalizing t addr with
  | nil => simpa using Staged.start
  | cons line c ih =>
    cases line with
    | label l => simp [ih, and_assoc]
    | instr i => simp [ih, and_assoc, Nat.add_assoc, Nat.add_comm 1]

/-- The stage at the end of a piece is at most the one that it leaves. -/
theorem Staged.finish (h : S.Staged f t addr c) :
    (S.stage f (addr + c.size)).Weaker (S.walk f t addr c) := by
  have hd : S.Staged f t addr (c ++ []) := by rwa [List.append_nil]
  exact (staged_append.mp hd).2

/-- A piece is no longer than the program. -/
theorem Staged.size_le (h : S.Staged f t addr c) : c.size ≤ S.program.code.size := by
  have hend : addr + c.size ≤ max addr S.program.code.size := by
    induction c generalizing t addr with
    | nil => simp
    | cons line c ih =>
      cases line with
      | label l => exact ih h.2
      | instr i =>
        obtain ⟨j, hj, -⟩ := exists_of_placed h.2.1
        have hlt := (Array.getElem?_eq_some_iff.mp hj).1
        have hrest := ih h.2.2
        rw [Code.size_cons_instr]
        omega
  omega

@[simp]
theorem staged_located : S.Staged f t addr (Code.located loc c) ↔ S.Staged f t addr c := by
  induction c generalizing t addr with
  | nil => simp
  | cons line c ih =>
    cases line with
    | label name => simp [ih]
    | instr i => simp [ih, Instr.settle_located]

/-- The code of a routine is staged. -/
theorem staged_of_placed {pre post : Code} (hp : Placed S.program f.frame f.entry f.code)
    (hc : f.code = pre ++ (c ++ post)) :
    S.Staged f (S.walk f .start f.entry pre) (f.entry + pre.size) c := by
  induction c generalizing pre with
  | nil =>
    rw [staged_nil, stage, hc, scan_append le_rfl]
    exact scan_weaker
  | cons line c ih =>
    have hc' : f.code = (pre ++ [line]) ++ (c ++ post) := by rw [hc]; simp
    have hrest := ih hc'
    rw [hc, placed_append] at hp
    cases line with
    | label name => exact ⟨hp.2.1, by simpa using hrest⟩
    | instr i =>
      refine ⟨?_, hp.2.1, by simpa [Nat.add_assoc] using hrest⟩
      rw [stage, hc, scan_append le_rfl, List.cons_append, scan, if_pos rfl]

/-- The code up to an address inside it. -/
theorem exists_split {k : Nat} (h : k < c.size) :
    ∃ (pre : Code) (i : Instr) (post : Code), c = pre ++ .instr i :: post ∧ pre.size = k := by
  induction c generalizing k with
  | nil => exact absurd h (Nat.not_lt_zero k)
  | cons line c ih =>
    cases line with
    | label l =>
      obtain ⟨pre, i, post, rfl, hk⟩ := ih h
      exact ⟨.label l :: pre, i, post, rfl, hk⟩
    | instr i =>
      cases k with
      | zero => exact ⟨[], i, c, rfl, rfl⟩
      | succ k =>
        rw [Code.size_cons_instr] at h
        obtain ⟨pre, j, post, rfl, hk⟩ := ih (Nat.lt_of_succ_lt_succ h)
        exact ⟨.instr i :: pre, j, post, rfl, by rw [Code.size_cons_instr, hk]⟩

/-- A stage counts the reserved slots as the routine does. -/
theorem slots_stage {pc : Nat} (h : f.Holds pc) : (S.stage f pc).slots = f.slots pc := by
  obtain ⟨hle, hlt⟩ := h
  obtain ⟨pre, i, post, hcode, hk⟩ := exists_split (show pc - f.entry < f.code.size by omega)
  have hpc : f.entry + pre.size = pc := by omega
  have htake : f.code.instrs.take (pc - f.entry) = pre.instrs := by
    rw [← hk, hcode, Code.instrs_append]
    exact List.take_left
  rw [stage, hcode, scan_append hpc.le, scan, if_pos hpc, slots_walk, Routine.slots, htake]
  rfl

/-! ## The instructions that generated code uses -/

section Instructions

variable {o o' : Operand} {x y : Reg} {v : Value} {comment l : String}

@[simp]
theorem after_push : S.after f t addr (.push o) = t.push o ⟨S.kind f t o, addr + 1⟩ := rfl

@[simp]
theorem after_pop : S.after f t addr (.pop (.reg x)) = t.pop x := rfl

@[simp]
theorem after_ldi : S.after f t addr (.ldi x v) = t.set x (some v.ty) := rfl

@[simp]
theorem after_mov_reg : S.after f t addr (.mov (.reg x) o) = t.set x (S.kind f t o) := rfl

/-- A store into memory. -/
theorem after_store (h : ∀ x, o ≠ .reg x) : S.after f t addr (.mov o o') = t := by
  cases o with
  | reg x => exact absurd rfl (h x)
  | _ => rfl

theorem after_store_withComment (h : ∀ x, o ≠ .reg x) :
    S.after f t addr ((Instr.mov o o').withComment comment) = t := after_store h

@[simp]
theorem after_step {op : UnaryOp} : S.after f t addr (.unary (stepCode op) o) = t := by
  cases op <;> cases o <;> rfl

/-- Arithmetic on registers. -/
theorem after_alu {op : OpCode} (hop : op ∈ [OpCode.add, .sub, .mul, .div, .and, .or, .xor, .cp]) :
    S.after f t addr (.binary op (.reg x) (.reg y)) =
      t.set x ((t.regs x).bind fun a => (t.regs y).bind fun b => aluType op a b) := by
  fin_cases hop <;> rfl

@[simp]
theorem after_rjmp : S.after f t addr (.rjmp o) = t.forget := by
  cases o <;> rfl

@[simp]
theorem after_rjmpIfZero_label : S.after f t addr (.rjmpIfZero (.label l) x) = t := rfl

@[simp]
theorem after_rjmpIfZero_imm : S.after f t addr (.rjmpIfZero (.imm v) x) = t := rfl

@[simp]
theorem after_call_withComment {n : Nat} :
    S.after f t addr ((Instr.call o n).withComment comment) =
      t.call (Int64.ofNat n).toInt.toNat (S.result? o) := by
  cases o <;> rfl

@[simp]
theorem after_ret : S.after f t addr .ret = t.forget := rfl

end Instructions

/-! ## Code that leaves `R2` alone -/

/-- Code behind which nothing is known of `R2` if nothing was known in front of it. -/
def Calm (S : TypedSetting) (f : Routine) (c : Code) : Prop :=
  ∀ ⦃t addr⦄, t.regs .r2 = none → (S.walk f t addr c).regs .r2 = none

theorem calm_nil : S.Calm f [] := fun _ _ h => h

theorem Calm.append (hc : S.Calm f c) (hd : S.Calm f d) : S.Calm f (c ++ d) := by
  intro t addr h
  rw [walk_append]
  exact hd (hc h)

@[simp]
theorem calm_located : S.Calm f (Code.located loc c) ↔ S.Calm f c := by
  simp [Calm]

theorem Calm.label {l : String} (hc : S.Calm f c) : S.Calm f (.label l :: c) := by
  intro t addr h
  refine hc ?_
  simp [Stage.atLabel, h]

/-- An instruction that does not set `R2`. -/
theorem Calm.instr (hc : S.Calm f c) (hi : i.dest ≠ some (.reg .r2)) :
    S.Calm f (.instr i :: c) := by
  intro t addr h
  refine hc ?_
  have hne {x : Reg} (hd : i.dest = some (.reg x)) : .r2 ≠ x := by
    rintro rfl
    exact hi hd
  unfold after
  split
  · exact h
  · split
    next o _ _ hd _ =>
      rw [← Option.not_isSome_iff_eq_none, Option.isSome_iff_exists]
      rintro ⟨ty, hty⟩
      cases h.symm.trans (Stage.regs_of_regs_push hty)
    next _ hd => rw [Stage.regs_pop_of_ne (hne hd), h]
    next hd _ => rw [Stage.regs_set_of_ne (hne hd), h]
    next hd _ => rw [Stage.regs_set_of_ne (hne hd), h]
    next => rfl
    next => rfl
    next => rfl
    next hd _ _ _ _ _ _ _ => rw [Stage.regs_set_of_ne (hne hd), h]
    next => exact h

/-! ## Operands and their types -/

/-- An operand of generated code names a place in memory for values of a type. The slots of a local
variable are reserved, and an index is an integer. -/
inductive Place (S : TypedSetting) (f : Routine) (t : Stage) : Operand → Ty → Prop
  | global {o : Nat} {w : Value} : S.globals.values[o]? = some w →
    Place S f t (.ptr ⟨.global, o, none⟩) w.ty
  | globalElement {name : String} {v : Variable} {o : Nat} {ty : Ty} :
    S.names.get? name = some (.variable v) → v.slot = .global o → t.regs .ix = some ty →
    ty.isIntegral = true → Place S f t (.ptr ⟨.global, o, some .ix⟩) v.ty
  | param {key : String} {e : FrameEntry} {k : Nat} : f.frame.entries.get? key = some e →
    e.offset = -((k : Int) + 1) → (S.header f).params[k]? = some e.ty →
    Place S f t (.var key none) e.ty
  | local {key : String} {e : FrameEntry} : f.frame.entries.get? key = some e → 0 < e.offset →
    0 < e.span → e.offset + e.span ≤ t.slots → Place S f t (.var key none) e.ty
  | localElement {key : String} {e : FrameEntry} {ty : Ty} : f.frame.entries.get? key = some e →
    0 < e.offset → 0 < e.span → e.offset + e.span ≤ t.slots → t.regs .ix = some ty →
    ty.isIntegral = true → Place S f t (.var key (some .ix)) e.ty

/-- An operand of generated code has values of a type. -/
inductive Sees (S : TypedSetting) (f : Routine) (t : Stage) : Operand → Ty → Prop
  | imm (v : Value) : Sees S f t (.imm v) v.ty
  | reg {x : Reg} {ty : Ty} : t.regs x = some ty → Sees S f t (.reg x) ty
  | place {o : Operand} {ty : Ty} : S.Place f t o ty → Sees S f t o ty

variable {o : Operand} {ty : Ty}

theorem Place.ne_reg (h : S.Place f t o ty) (x : Reg) : o ≠ .reg x := by
  cases h <;> simp

theorem Place.kind (hS : S.globals.Sound S.names) (h : S.Place f t o ty) :
    S.kind f t o = some ty := by
  cases h with
  | global hw => simp [TypedSetting.kind, hw]
  | globalElement hv hslot _ _ =>
    obtain ⟨o', hslot', hspan, hblock⟩ := hS.declared hv
    cases hslot.symm.trans hslot'
    obtain ⟨w, hw, hty⟩ := hblock 0 hspan
    rw [Nat.add_zero] at hw
    simp [TypedSetting.kind, hw, hty]
  | param he _ _ => simp [TypedSetting.kind, he]
  | «local» he _ _ _ => simp [TypedSetting.kind, he]
  | localElement he _ _ _ _ _ => simp [TypedSetting.kind, he]

theorem Sees.kind (hS : S.globals.Sound S.names) (h : S.Sees f t o ty) :
    S.kind f t o = some ty := by
  cases h with
  | imm v => rfl
  | reg hx => exact hx
  | place hp => exact hp.kind hS

theorem Place.mono {t' : Stage} (h : S.Place f t o ty) (hslots : t.slots ≤ t'.slots)
    (hix : ∀ {ty}, t.regs .ix = some ty → t'.regs .ix = some ty) : S.Place f t' o ty := by
  cases h with
  | global hw => exact .global hw
  | globalElement hv hslot hi hint => exact .globalElement hv hslot (hix hi) hint
  | param he ho hp => exact .param he ho hp
  | «local» he hpos hspan hle => exact .local he hpos hspan (by omega)
  | localElement he hpos hspan hle hi hint =>
    exact .localElement he hpos hspan (by omega) (hix hi) hint

/-! ## What an instruction may do -/

/-- A value that was pushed by the instruction in front of `born` is on top of the stack when the
code from `start` on is done: the push is the last instruction, or the next one steps a variable. -/
def Delivers (S : TypedSetting) (start : Nat) (c : Code) (born : Nat) : Prop :=
  born = start + c.size ∨ (born + 1 = start + c.size ∧
    ∃ j, S.program.code[born]? = some j ∧ (j.op = .inc ∨ j.op = .dec))

/-- The values on top of the stack are the arguments of a call of a host function that the source
makes at this address: those with a parameter have its type, and each was left there by the code of
its argument. -/
def Serves (S : TypedSetting) (f : Routine) (t : Stage) (addr : Nat) (name : String) (argc : Nat) :
    Prop :=
  ∃ (decl : HostDecl) (needed : Bool) (x : ExprOccurrence) (args : List Expr) (loc loc' : Location)
    (sig : Signature) (code : Code) (s' : Supply),
    S.hosts.get? name = some decl ∧ (S.header f).lowers needed x ∧
    x.expr = .call (.ident name loc) args loc' ∧
    calleeSignature x.scope (.ident name loc) = .ok (name, sig) ∧
    lowerArgs x.fn x.scope args sig.params x.supply = .ok (code, s') ∧ addr = x.addr + code.size ∧
    args.length = argc ∧ decl.params.length ≤ argc ∧
    (∀ (k : Nat) (ty : Ty), decl.params[k]? = some ty → t.temps[k]?.bind Temp.ty = some ty) ∧
    ∀ k < argc, ∃ (temp : Temp) (start : Nat) (c : Code), t.temps[k]? = some temp ∧ x.Passes k start c ∧
      S.Delivers start c temp.born

/-- The instruction at an address is the last one of a return statement, and the one in front of it
has taken the result off the stack. -/
def Returns (S : TypedSetting) (f : Routine) (addr : Nat) : Prop :=
  ∃ (o : Occurrence) (e : Expr) (loc : Location) (code : Code) (d' : Draft) (before : Nat) (j : Instr),
    (S.header f).contains o ∧ o.stmt = .ret (some e) loc ∧
    lowerStmt o.site o.stmt o.draft = .ok (code, d') ∧ o.addr + code.size = addr + 1 ∧
    addr = before + 1 ∧ S.program.code[before]? = some j ∧ j.op = .pop ∧ j.dest = some (.reg .rv)

/-- An operation of generated code works with values of the right types at an address with stage
`t`; the flag tells a push that reserves a slot. A jump goes to a place where no more is known, and
nothing of `RV`. -/
inductive Accepts (S : TypedSetting) (f : Routine) (t : Stage) (addr : Nat) :
    OpCode → Option Operand → Option Operand → Bool → Prop
  | push {o : Operand} {ty : Ty} : S.Sees f t o ty → Accepts S f t addr .push (some o) none false
  | reserve {v : Value} : t.temps = [] → Accepts S f t addr .push (some (.imm v)) none true
  | pop {x : Reg} {ty : Ty} {born : Nat} {rest : List Temp} : t.temps = ⟨some ty, born⟩ :: rest →
    Accepts S f t addr .pop (some (.reg x)) none false
  | load {x : Reg} {v : Value} : Accepts S f t addr .ldi (some (.reg x)) (some (.imm v)) false
  | copy {x : Reg} {o : Operand} {ty : Ty} : S.Sees f t o ty →
    Accepts S f t addr .mov (some (.reg x)) (some o) false
  | store {d o : Operand} {target source : Ty} : S.Place f t d target → S.Sees f t o source →
    assignable target source = true → Accepts S f t addr .mov (some d) (some o) false
  /-- The result of a host function is converted to its declared type. -/
  | convert {name : String} {decl : HostDecl} {o before : Nat} {w : Value} {j : Instr} :
    addr = before + 1 → S.program.code[before]? = some j → j.op = .call →
    j.dest = some (.host name) → S.hosts.get? name = some decl →
    (decl.ret, o) ∈ S.globals.casts → S.globals.values[o]? = some w →
    Accepts S f t addr .mov (some (.ptr ⟨.global, o, none⟩)) (some (.reg .rv)) false
  | compute {op : OpCode} {x y : Reg} {a b ty : Ty} : t.regs x = some a → t.regs y = some b →
    aluType op a b = some ty → Accepts S f t addr op (some (.reg x)) (some (.reg y)) false
  | change {op : OpCode} {o : Operand} {ty : Ty} : op = .inc ∨ op = .dec →
    ty = .int ∨ ty = .double → S.Sees f t o ty → (∀ v, o ≠ .imm v) →
    Accepts S f t addr op (some o) none false
  | jump {l : String} {target : Nat} {c : Option Reg} : S.program.labels.get? l = some target →
    (S.stage f target).Weaker t → (S.stage f target).regs .rv = none →
    Accepts S f t addr .rjmp (some (.label l)) (c.map .reg) false
  /-- Only a load is skipped. -/
  | skip {x : Reg} {j : Instr} : (S.stage f (addr + 2)).Weaker t →
    S.program.code[addr + 1]? = some j → j.op = .ldi →
    Accepts S f t addr .rjmp (some (.imm (.int 2))) (some (.reg x)) false
  | call {name : String} {n : Int64} {g : Routine} : g ∈ S.routines →
    S.program.labels.get? name = some g.entry → n.toInt = g.argc →
    (∀ (k : Nat) (ty : Ty), (S.header g).params[k]? = some ty → t.temps[k]?.bind Temp.ty = some ty) →
    (∀ ty, S.result? (.label name) = some ty → ty = (S.header g).ret ∧ ty ≠ .void) →
    Accepts S f t addr .call (some (.label name)) (some (.imm (.int n))) false
  | host {name : String} {n : Int64} {argc : Nat} : n.toInt = argc →
    S.Serves f t addr name argc →
    Accepts S f t addr .call (some (.host name)) (some (.imm (.int n))) false
  | ret : (S.header f).ret = .void ∨ (t.regs .rv = some (S.header f).ret ∧ S.Returns f addr) ∨
      addr + 1 = f.entry + f.code.size →
    Accepts S f t addr .ret none none false

/-- Each instruction of a piece of code works with values of the right types. -/
def Accepted (S : TypedSetting) (f : Routine) : Stage → Nat → Code → Prop
  | _, _, [] => True
  | t, addr, .label _ :: rest => Accepted S f t.atLabel addr rest
  | t, addr, .instr i :: rest =>
    S.Accepts f t addr i.op i.dest i.src i.reserves ∧
      Accepted S f (S.after f t addr i) (addr + 1) rest

@[simp]
theorem accepted_nil : S.Accepted f t addr [] := trivial

@[simp]
theorem accepted_cons_label {name : String} :
    S.Accepted f t addr (.label name :: c) ↔ S.Accepted f t.atLabel addr c := Iff.rfl

@[simp]
theorem accepted_cons_instr :
    S.Accepted f t addr (.instr i :: c) ↔
      S.Accepts f t addr i.op i.dest i.src i.reserves ∧
        S.Accepted f (S.after f t addr i) (addr + 1) c := Iff.rfl

@[simp]
theorem accepted_append :
    S.Accepted f t addr (c ++ d) ↔
      S.Accepted f t addr c ∧ S.Accepted f (S.walk f t addr c) (addr + c.size) d := by
  induction c generalizing t addr with
  | nil => simp
  | cons line c ih =>
    cases line with
    | label name => simp [ih]
    | instr i => simp [ih, and_assoc, Nat.add_assoc, Nat.add_comm 1]

@[simp]
theorem accepted_located : S.Accepted f t addr (Code.located loc c) ↔ S.Accepted f t addr c := by
  induction c generalizing t addr with
  | nil => simp
  | cons line c ih =>
    cases line with
    | label name => simp [ih]
    | instr i =>
      have hfields : (i.located loc).op = i.op ∧ (i.located loc).dest = i.dest ∧
          (i.located loc).src = i.src := by
        unfold Instr.located
        split <;> exact ⟨rfl, rfl, rfl⟩
      simp [ih, hfields]

/-- What is checked of the instruction at an address of a routine. -/
def Checks (S : TypedSetting) (f : Routine) (pc : Nat) : Prop :=
  ∃ i, S.program.code[pc]?.map Instr.bare = some (i.settle S.program.labels f.frame pc).bare ∧
    S.Accepts f (S.stage f pc) pc i.op i.dest i.src i.reserves ∧
    (S.stage f (pc + 1)).Weaker (S.after f (S.stage f pc) pc i)

/-- Code that is staged and accepted is checked at each of its addresses. -/
theorem checks_of_accepted {k : Nat} (hs : S.Staged f t addr c) (ha : S.Accepted f t addr c)
    (hk : k < c.size) : S.Checks f (addr + k) := by
  induction c generalizing t addr k with
  | nil => exact absurd hk (Nat.not_lt_zero k)
  | cons line c ih =>
    cases line with
    | label name => exact ih hs.2 ha hk
    | instr i =>
      obtain ⟨hstage, hi, hrest⟩ := hs
      cases k with
      | zero =>
        refine ⟨i, hi, ?_, ?_⟩
        · rw [Nat.add_zero, hstage]
          exact ha.1
        · simp only [Nat.add_zero, hstage]
          exact hrest.start
      | succ k =>
        rw [Nat.add_comm k, ← Nat.add_assoc]
        rw [Code.size_cons_instr] at hk
        exact ih hrest ha.2 (by omega)

/-! ## Stages and the height of the stack -/

/-- Only pushes, pops and calls change the values on the stack. -/
theorem temps_after_of_op (hpush : i.op ≠ .push) (hpop : i.op ≠ .pop) (hcall : i.op ≠ .call) :
    (S.after f t addr i).temps = t.temps := by
  unfold after
  split
  · rfl
  · split
    next h _ => exact absurd h hpush
    next h _ => exact absurd h hpop
    next => rfl
    next => rfl
    next h _ _ => exact absurd h hcall
    next => rfl
    next => rfl
    next => rfl
    next => rfl

theorem length_temps_after {h : Int} {r : Nat} (ha : S.Admits f h r addr i)
    (ht : (t.temps.length : Int) + r = h) :
    ((S.after f t addr i).temps.length : Int) + (r + i.reserves.toNat : Nat) = h + i.rise := by
  obtain ⟨op, dest, src, comment, origin⟩ := i
  unfold Setting.Admits at ha
  simp only at ha
  split at ha
  case h_13 =>
    cases comment with
    | none => simp [after, Instr.reserves, Instr.rise]; omega
    | some text => simp [after, Instr.reserves, Instr.rise]; omega
  case h_14 =>
    have hlen : t.temps.length ≠ 0 := by omega
    simp [after, Instr.reserves, Instr.rise]
    omega
  case h_18 target n =>
    obtain ⟨argc, hn, hle, -⟩ := ha
    simp [after, Instr.reserves, Instr.rise, hn]
    omega
  case h_20 => exact ha.elim
  all_goals
    rw [temps_after_of_op (by simp) (by simp) (by simp)]
    simpa [Instr.reserves, Instr.rise] using ht

/-- Code that keeps the discipline of the stack has as many values on it as the stage says. -/
theorem length_temps_walk {h : Int} {r : Nat} (ha : S.Admitted f h r addr c)
    (ht : (t.temps.length : Int) + r = h) :
    ((S.walk f t addr c).temps.length : Int) + (r + c.reservations : Nat) = h + c.rise := by
  induction c generalizing t addr h r with
  | nil => simpa using ht
  | cons line c ih =>
    cases line with
    | label name => exact ih ha ht
    | instr i =>
      rw [walk_cons_instr, Code.reservations_cons_instr, Code.rise_cons_instr, ← Nat.add_assoc,
        ← Int.add_assoc]
      exact ih ha.2 (length_temps_after ha.1 ht)

/-- In a routine that keeps the discipline, a stage has the values that lie above the slots of
variables. -/
theorem length_temps_stage (ha : S.Admitted f 1 1 f.entry f.code) {pc : Nat} (h : f.Holds pc) :
    ((S.stage f pc).temps.length : Int) + f.slots pc = f.height pc := by
  obtain ⟨hle, hlt⟩ := h
  obtain ⟨pre, i, post, hcode, hk⟩ := exists_split (show pc - f.entry < f.code.size by omega)
  have hpc : f.entry + pre.size = pc := by omega
  have htake : f.code.instrs.take (pc - f.entry) = pre.instrs := by
    rw [← hk, hcode, Code.instrs_append]
    exact List.take_left
  have hpre : S.Admitted f 1 1 f.entry pre := by
    rw [hcode, Setting.admitted_append] at ha
    exact ha.1
  have hwalk := length_temps_walk (S := S) (t := .start) hpre rfl
  rw [stage, hcode, scan_append hpc.le, scan, if_pos hpc, Routine.slots, Routine.height, htake]
  exact hwalk

end TypedSetting

end Stepwise
