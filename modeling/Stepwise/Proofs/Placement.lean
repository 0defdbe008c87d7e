import Mathlib
import Stepwise.Compiler
import Stepwise.Proofs.Success

/-!
# Where generated code lies

Generated code goes through two passes: variables get their addresses in the frame, labels their
addresses in the code. `Placed` says what is left of a piece of generated code in the assembled
program, line by line: an instruction stands at its address with its operands settled, and a label
names the address where it stands. A piece of code can then be read in the program without
mention of the passes.

## Main definitions

* `Operand.settle`: an operand with variables and labels replaced
* `Placed`: a piece of generated code in an assembled program

## Main results

* `placed_append`: a piece is placed if its parts are
* `placed_of_assemble`: every part of the code of a program is placed
-/

namespace Stepwise

/-! ## Sizes of code -/

namespace Code

@[simp]
theorem instrs_nil : instrs [] = [] := rfl

@[simp]
theorem instrs_cons_instr (i : Instr) (c : Code) : instrs (.instr i :: c) = i :: instrs c := rfl

@[simp]
theorem instrs_cons_label (l : String) (c : Code) : instrs (.label l :: c) = instrs c := rfl

@[simp]
theorem instrs_append (c d : Code) : instrs (c ++ d) = instrs c ++ instrs d :=
  List.filterMap_append

@[simp]
theorem size_nil : size [] = 0 := rfl

@[simp]
theorem size_cons_instr (i : Instr) (c : Code) : size (.instr i :: c) = size c + 1 := rfl

@[simp]
theorem size_cons_label (l : String) (c : Code) : size (.label l :: c) = size c := rfl

@[simp]
theorem size_append (c d : Code) : size (c ++ d) = size c + size d := by
  simp [size]

@[simp]
theorem ofInstrs_nil : ofInstrs [] = [] := rfl

@[simp]
theorem ofInstrs_cons (i : Instr) (is : List Instr) :
    ofInstrs (i :: is) = .instr i :: ofInstrs is := rfl

@[simp]
theorem ofInstrs_append (is js : List Instr) :
    ofInstrs (is ++ js) = ofInstrs is ++ ofInstrs js := List.map_append

theorem instrs_ofInstrs (is : List Instr) : instrs (ofInstrs is) = is := by
  induction is with
  | nil => rfl
  | cons i is ih => exact congrArg (i :: ·) ih

@[simp]
theorem located_nil (loc : Location) : located loc [] = [] := rfl

@[simp]
theorem located_cons_instr (loc : Location) (i : Instr) (c : Code) :
    located loc (.instr i :: c) = .instr (i.located loc) :: located loc c := rfl

@[simp]
theorem located_cons_label (loc : Location) (l : String) (c : Code) :
    located loc (.label l :: c) = .label l :: located loc c := rfl

@[simp]
theorem size_located (loc : Location) (c : Code) : size (located loc c) = size c := by
  induction c with
  | nil => rfl
  | cons line c ih => cases line <;> simp [ih]

end Code

/-! ## Settled operands -/

/-- The distance or address that a label stands for in an instruction at `pc`. -/
def labelTarget (op : OpCode) (pc addr : Nat) : Int :=
  if op = .rjmp then (addr : Int) - pc else addr

variable {addr pc : Nat} {i : Instr} {labels : Table Nat} {fn : String} {frame : FrameLayout}

/-- A label becomes the distance to its address, as long as the program is not too long for a
machine word. -/
theorem toInt_labelTarget_rjmp {size : Nat} (hsize : size < 2 ^ 63) (hpc : pc < size)
    (haddr : addr ≤ size) :
    (pc : Int) + (Int64.ofInt (labelTarget .rjmp pc addr)).toInt = addr := by
  rw [labelTarget, if_pos rfl, Int64.toInt_ofInt_of_le (by omega) (by omega)]
  omega

/-- In all other instructions it becomes its address. -/
theorem toInt_labelTarget {op : OpCode} (hop : op ≠ .rjmp) {size : Nat} (hsize : size < 2 ^ 63)
    (haddr : addr ≤ size) : (Int64.ofInt (labelTarget op pc addr)).toInt = addr := by
  rw [labelTarget, if_neg hop, Int64.toInt_ofInt_of_le (by omega) (by omega)]

/-- An operand of an instruction at `pc` with variables and labels replaced. -/
def Operand.settle (labels : Table Nat) (frame : FrameLayout) (op : OpCode) (pc : Nat) :
    Operand → Operand
  | .label name =>
    match labels.get? name with
    | some addr => .imm (.int (Int64.ofInt (labelTarget op pc addr)))
    | none => .label name
  | .var key index =>
    match frame.offset? key with
    | some offset => .ptr ⟨.frame, offset, index⟩
    | none => .var key index
  | o => o

/-- An instruction at `pc` with its operands settled. -/
def Instr.settle (labels : Table Nat) (frame : FrameLayout) (pc : Nat) (i : Instr) : Instr :=
  { i with
    dest := i.dest.map (Operand.settle labels frame i.op pc)
    src := i.src.map (Operand.settle labels frame i.op pc) }

/-- An instruction without its place in the program text. -/
def Instr.bare (i : Instr) : Instr := { i with origin := none }

@[simp]
theorem Instr.bare_located (i : Instr) (loc : Location) : (i.located loc).bare = i.bare := by
  unfold Instr.located
  split <;> rfl

theorem Instr.settle_located (labels : Table Nat) (frame : FrameLayout) (pc : Nat) (i : Instr)
    (loc : Location) :
    ((i.located loc).settle labels frame pc).bare = (i.settle labels frame pc).bare := by
  unfold Instr.located
  split <;> rfl

/-- An assembled program: its instructions and the addresses of its labels. -/
structure Assembled where
  code : Array Instr
  labels : Table Nat

/-- A piece of generated code stands in an assembled program from address `addr` on, its variables
in the given frame. -/
def Placed (p : Assembled) (frame : FrameLayout) : Nat → Code → Prop
  | _, [] => True
  | addr, .label name :: rest => p.labels.get? name = some addr ∧ Placed p frame addr rest
  | addr, .instr i :: rest =>
    p.code[addr]?.map Instr.bare = some (i.settle p.labels frame addr).bare ∧
      Placed p frame (addr + 1) rest

section Placed

variable {p : Assembled} {frame : FrameLayout}

@[simp]
theorem placed_nil (addr : Nat) : Placed p frame addr [] := trivial

@[simp]
theorem placed_cons_label (addr : Nat) (name : String) (rest : Code) :
    Placed p frame addr (.label name :: rest) ↔
      p.labels.get? name = some addr ∧ Placed p frame addr rest := Iff.rfl

@[simp]
theorem placed_cons_instr (addr : Nat) (i : Instr) (rest : Code) :
    Placed p frame addr (.instr i :: rest) ↔
      p.code[addr]?.map Instr.bare = some (i.settle p.labels frame addr).bare ∧
        Placed p frame (addr + 1) rest := Iff.rfl

/-- A piece is placed if its parts are. -/
@[simp]
theorem placed_append (addr : Nat) (c d : Code) :
    Placed p frame addr (c ++ d) ↔ Placed p frame addr c ∧ Placed p frame (addr + c.size) d := by
  induction c generalizing addr with
  | nil => simp
  | cons line c ih =>
    cases line with
    | label name => simp [ih, and_assoc]
    | instr i => simp [ih, and_assoc, Nat.add_assoc, Nat.add_comm 1]

@[simp]
theorem placed_located (addr : Nat) (loc : Location) (c : Code) :
    Placed p frame addr (Code.located loc c) ↔ Placed p frame addr c := by
  induction c generalizing addr with
  | nil => simp
  | cons line c ih =>
    cases line with
    | label name => simp [ih]
    | instr i => simp [ih, Instr.settle_located]

end Placed

/-! ## Assembly places code -/

/-- Collecting keeps the addresses collected so far. -/
theorem get?_of_collectLabels {t t' : Table Nat} {code : Code} {l : String} {a : Nat}
    (h : collectLabels addr t code = .ok t') (hl : t.get? l = some a) : t'.get? l = some a := by
  induction code generalizing addr t with
  | nil => cases h; exact hl
  | cons line rest ih =>
    cases line with
    | instr i => exact ih h hl
    | label name =>
      simp only [collectLabels] at h
      split at h
      · cases h
      next hn =>
        refine ih h ?_
        have hne : l ≠ name := by
          rintro rfl
          simp [Table.contains, hl] at hn
        rw [Table.get?_insert_of_ne t hne, hl]

/-- A label names the number of instructions before it. -/
theorem get?_label_of_collectLabels {t t' : Table Nat} {pre post : Code} {l : String}
    (h : collectLabels addr t (pre ++ .label l :: post) = .ok t') :
    t'.get? l = some (addr + pre.size) := by
  induction pre generalizing addr t with
  | nil =>
    simp only [List.nil_append, collectLabels] at h
    split at h
    · cases h
    · exact get?_of_collectLabels h (by simp)
  | cons line pre ih =>
    cases line with
    | instr i =>
      rw [ih h, Code.size_cons_instr]
      congr 1
      omega
    | label name =>
      simp only [List.cons_append, collectLabels] at h
      split at h
      · cases h
      · exact ih h

/-- Labels name addresses between the start and the end of the code. -/
theorem le_of_collectLabels {t t' : Table Nat} {code : Code} {l : String} {a : Nat}
    (h : collectLabels addr t code = .ok t') (hl : t'.get? l = some a) :
    t.get? l = some a ∨ a ≤ addr + Code.size code := by
  induction code generalizing addr t with
  | nil =>
    cases h
    exact .inl hl
  | cons line code ih =>
    cases line with
    | instr i =>
      rcases ih h with hold | hle
      · exact .inl hold
      · right
        rw [Code.size_cons_instr]
        omega
    | label name =>
      simp only [collectLabels] at h
      split at h
      · cases h
      · rcases ih h with hold | hle
        · by_cases hname : l = name
          · subst hname
            rw [Table.get?_insert_self] at hold
            cases hold
            exact .inr (Nat.le_add_right _ _)
          · rw [Table.get?_insert_of_ne _ hname] at hold
            exact .inl hold
        · exact .inr hle

/-- Linking replaces each instruction by itself with its labels replaced. -/
theorem getElem?_of_linkFrom {pre post js : List Instr}
    (h : linkFrom labels pc (pre ++ i :: post) = .ok js) :
    ∃ j, js[pre.length]? = some j ∧
      i.mapOperands (linkOperand labels i.op (pc + pre.length)) = .ok j := by
  induction pre generalizing pc js with
  | nil =>
    simp only [List.nil_append, linkFrom, bind_eq_ok, pure_eq_ok] at h
    obtain ⟨j, hj, rest, -, rfl⟩ := h
    exact ⟨j, by simp, by simpa using hj⟩
  | cons k pre ih =>
    simp only [List.cons_append, linkFrom, bind_eq_ok, pure_eq_ok] at h
    obtain ⟨j, -, rest, hrest, rfl⟩ := h
    obtain ⟨j', hj', hm⟩ := ih hrest
    refine ⟨j', by simpa using hj', ?_⟩
    rw [List.length_cons, Nat.add_comm pre.length, ← Nat.add_assoc]
    exact hm

theorem length_of_linkFrom {is js : List Instr} (h : linkFrom labels pc is = .ok js) :
    js.length = is.length := by
  induction is generalizing pc js with
  | nil => cases h; rfl
  | cons i is ih =>
    simp only [linkFrom, bind_eq_ok, pure_eq_ok] at h
    obtain ⟨j, -, rest, hrest, rfl⟩ := h
    simp [ih hrest]

theorem settle_of_linkOperand {op : OpCode} {o o' o'' : Operand} (hr : frame.resolve fn o = .ok o')
    (hl : linkOperand labels op pc o' = .ok o'') : o'' = o.settle labels frame op pc := by
  cases o with
  | var key index =>
    simp only [FrameLayout.resolve] at hr
    split at hr
    next offset h =>
      cases hr
      cases hl
      simp [Operand.settle, h]
    · cases hr
  | label name =>
    cases hr
    simp only [linkOperand] at hl
    split at hl
    · cases hl
    next addr h =>
      cases hl
      simp [Operand.settle, labelTarget, h]
  | imm v => cases hr; cases hl; rfl
  | reg r => cases hr; cases hl; rfl
  | ptr p => cases hr; cases hl; rfl
  | host name => cases hr; cases hl; rfl

theorem map_settle_of_mapM {op : OpCode} {o o' o'' : Option Operand}
    (hr : o.mapM (frame.resolve fn) = .ok o') (hl : o'.mapM (linkOperand labels op pc) = .ok o'') :
    o'' = o.map (Operand.settle labels frame op pc) := by
  cases o with
  | none => cases hr; cases hl; rfl
  | some o =>
    simp only [Option.mapM_some, map_eq_ok] at hr
    obtain ⟨o₁, h₁, rfl⟩ := hr
    simp only [Option.mapM_some, map_eq_ok] at hl
    obtain ⟨o₂, h₂, rfl⟩ := hl
    rw [Option.map_some, settle_of_linkOperand h₁ h₂]

/-- Both passes together settle the operands of an instruction. -/
theorem settle_of_mapOperands {i' j : Instr} (hr : i.mapOperands (frame.resolve fn) = .ok i')
    (hl : i'.mapOperands (linkOperand labels i'.op pc) = .ok j) : j = i.settle labels frame pc := by
  simp only [Instr.mapOperands, bind_eq_ok, pure_eq_ok] at hr hl
  obtain ⟨d, hd, s, hs, rfl⟩ := hr
  obtain ⟨d', hd', s', hs', rfl⟩ := hl
  rw [map_settle_of_mapM hd hd', map_settle_of_mapM hs hs']
  rfl

/-- **Assembly places every part of the code**: a piece whose variables were resolved in a frame
stands where the instructions before it end. -/
theorem placed_of_assemble {instrs : List Instr} {full pre code draft post : Code}
    (hl : labelAddresses full = .ok labels) (hi : linkFrom labels 0 full.instrs = .ok instrs)
    (hf : full = pre ++ (code ++ post)) (hr : Lowering.resolveCode frame fn draft = .ok code) :
    Placed ⟨instrs.toArray, labels⟩ frame pre.size draft := by
  induction draft generalizing pre code with
  | nil => trivial
  | cons line draft ih =>
    cases line with
    | label name =>
      simp only [Lowering.resolveCode, bind_eq_ok, pure_eq_ok] at hr
      obtain ⟨rest, hrest, rfl⟩ := hr
      have ht := @ih (pre ++ [.label name]) rest (by rw [hf]; simp) hrest
      simp only [Code.size_append, Code.size_cons_label, Code.size_nil, Nat.add_zero] at ht
      refine ⟨?_, ht⟩
      rw [hf] at hl
      simpa using get?_label_of_collectLabels hl
    | instr i =>
      simp only [Lowering.resolveCode, bind_eq_ok, pure_eq_ok] at hr
      obtain ⟨i', hi', rest, hrest, rfl⟩ := hr
      have ht := @ih (pre ++ [.instr i']) rest (by rw [hf]; simp) hrest
      simp only [Code.size_append, Code.size_cons_instr, Code.size_nil, Nat.zero_add] at ht
      refine ⟨?_, ht⟩
      rw [hf, Code.instrs_append, List.cons_append, Code.instrs_cons_instr] at hi
      obtain ⟨j, hj, hm⟩ := getElem?_of_linkFrom hi
      rw [Nat.zero_add] at hm
      have hs := settle_of_mapOperands hi' hm
      show (instrs.toArray[pre.size]?).map Instr.bare = _
      rw [List.getElem?_toArray, show pre.size = pre.instrs.length from rfl, hj, hs]
      rfl

/-- An instruction of a placed piece stands at its address. -/
theorem getElem?_of_placed {p : Assembled} {k : Nat} {c : Code} (h : Placed p frame addr c)
    (hi : c.instrs[k]? = some i) :
    p.code[addr + k]?.map Instr.bare = some (i.settle p.labels frame (addr + k)).bare := by
  induction c generalizing addr k with
  | nil => simp at hi
  | cons line c ih =>
    cases line with
    | label name => exact ih h.2 hi
    | instr i' =>
      rw [Code.instrs_cons_instr] at hi
      cases k with
      | zero =>
        cases hi
        exact h.1
      | succ k =>
        have hrest := ih h.2 hi
        rwa [Nat.add_assoc, Nat.add_comm 1] at hrest

/-- What is left of an instruction in the assembled program. -/
theorem exists_of_placed {p : Assembled}
    (h : p.code[addr]?.map Instr.bare = some (i.settle p.labels frame addr).bare) :
    ∃ j, p.code[addr]? = some j ∧ j.op = i.op ∧
      j.dest = i.dest.map (Operand.settle p.labels frame i.op addr) ∧
      j.src = i.src.map (Operand.settle p.labels frame i.op addr) ∧ j.comment = i.comment := by
  obtain ⟨j, hj, hb⟩ := Option.map_eq_some_iff.mp h
  have hop := congrArg Instr.op hb
  have hd := congrArg Instr.dest hb
  have hs := congrArg Instr.src hb
  have hc := congrArg Instr.comment hb
  exact ⟨j, hj, hop, hd, hs, hc⟩

end Stepwise
