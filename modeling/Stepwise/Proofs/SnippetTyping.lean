import Mathlib
import Stepwise.Proofs.Stages

/-!
# The types of code snippets

Expressions and statements are put together from a few snippets of code. Each of them leaves a value
of a known type on the stack, or leaves the stack as it was, provided that the values that it starts
from have the right types; and each of its instructions works with values of the types that it needs.

## Main definitions

* `Opens`: a label where nothing is known of registers
* `Yields`, `Keeps`: code that leaves a value of a type, and code that leaves the stack as it was

## Main results

* `yields_binaryCode`, `yields_unaryCode`, `yields_andCode`, `yields_orCode`: the operators
-/

namespace Stepwise.TypedSetting

open Snippet Lowering

variable {S : TypedSetting} {f : Routine} {t : Stage} {addr : Nat}

/-! ## Labels -/

/-- A label names an address where these values are on the stack and nothing is known of
registers. -/
def Opens (S : TypedSetting) (f : Routine) (temps : List Temp) (l : String) : Prop :=
  ∃ a, S.program.labels.get? l = some a ∧ (S.stage f a).temps = temps ∧
    ∀ r, (S.stage f a).regs r = none

variable {l : String} {op : OpCode}

theorem opens_of_staged {c : Code} (hs : S.Staged f t addr (.label l :: c))
    (hr : t.regs .r2 = none) : S.Opens f t.temps l := by
  have hweaker := hs.2.start
  refine ⟨addr, hs.1, hweaker.temps, fun r => ?_⟩
  rw [← Option.not_isSome_iff_eq_none, Option.isSome_iff_exists]
  rintro ⟨ty, hty⟩
  have hlabel := hweaker.regs hty
  -- of all registers a label keeps only `R2`, of which nothing was known
  simp only [Stage.atLabel] at hlabel
  split at hlabel
  next h =>
    subst h
    cases hr.symm.trans hlabel
  · cases hlabel

/-- A jump to such a label is accepted wherever these values are on the stack. -/
theorem Opens.accepts (h : S.Opens f t.temps l) (c : Option Reg) :
    S.Accepts f t addr .rjmp (some (.label l)) (c.map .reg) false := by
  obtain ⟨a, ha, htemps, hregs⟩ := h
  exact .jump ha ⟨htemps, fun {r ty} hty => by cases (hregs r).symm.trans hty⟩ (hregs .rv)

theorem Opens.accepts_rjmp (h : S.Opens f t.temps l) :
    S.Accepts f t addr .rjmp (some (.label l)) none false := h.accepts none

theorem Opens.accepts_rjmpIfZero {x : Reg} (h : S.Opens f t.temps l) :
    S.Accepts f t addr .rjmp (some (.label l)) (some (.reg x)) false := h.accepts (some x)

/-! ## Code that leaves a value -/

/-- Code that leaves a value of a type on the stack, with all its instructions accepted. -/
def Yields (S : TypedSetting) (f : Routine) (t : Stage) (addr : Nat) (c : Code) (ty : Ty) : Prop :=
  (∃ born, S.Delivers addr c born ∧ (S.walk f t addr c).temps = ⟨some ty, born⟩ :: t.temps) ∧
    S.Accepted f t addr c

/-- Code that leaves the stack as it was, with all its instructions accepted. -/
def Keeps (S : TypedSetting) (f : Routine) (t : Stage) (addr : Nat) (c : Code) : Prop :=
  (S.walk f t addr c).temps = t.temps ∧ S.Accepted f t addr c

variable {c d : Code} {a b ty : Ty} {o : Operand} {x y : Reg}

@[simp]
theorem yields_located {loc : Location} :
    S.Yields f t addr (Code.located loc c) ty ↔ S.Yields f t addr c ty := by
  simp [Yields, Delivers]

theorem keeps_nil : S.Keeps f t addr [] := ⟨rfl, trivial⟩

theorem Keeps.append (hc : S.Keeps f t addr c)
    (hd : S.Keeps f (S.walk f t addr c) (addr + c.size) d) : S.Keeps f t addr (c ++ d) := by
  refine ⟨?_, accepted_append.mpr ⟨hc.2, hd.2⟩⟩
  rw [walk_append, hd.1, hc.1]

/-- Code in front that leaves the stack as it was. -/
theorem Keeps.yields (hc : S.Keeps f t addr c)
    (hd : S.Yields f (S.walk f t addr c) (addr + c.size) d ty) : S.Yields f t addr (c ++ d) ty := by
  obtain ⟨⟨born, hborn, htemps⟩, hacc⟩ := hd
  refine ⟨⟨born, ?_, ?_⟩, accepted_append.mpr ⟨hc.2, hacc⟩⟩
  · unfold Delivers at hborn ⊢
    rwa [Code.size_append, ← Nat.add_assoc]
  · rw [walk_append, htemps, hc.1]

/-- An instruction in front that leaves the stack as it was. -/
theorem Yields.instr {i : Instr} {t' : Stage} (hafter : S.after f t addr i = t')
    (htemps : t'.temps = t.temps) (hi : S.Accepts f t addr i.op i.dest i.src i.reserves)
    (h : S.Yields f t' (addr + 1) c ty) : S.Yields f t addr (.instr i :: c) ty := by
  subst hafter
  have hkeeps : S.Keeps f t addr [.instr i] := ⟨htemps, hi, trivial⟩
  exact hkeeps.yields h

theorem yields_push (h : S.Sees f t o ty) (hS : S.globals.Sound S.names) :
    S.Yields f t addr (Code.ofInstrs [.push o]) ty := by
  refine ⟨⟨addr + 1, .inl rfl, ?_⟩, .push h, trivial⟩
  simp [h.kind hS]

theorem yields_push_reg (h : t.regs x = some ty) :
    S.Yields f t addr (Code.ofInstrs [.push (.reg x)]) ty := by
  refine ⟨⟨addr + 1, .inl rfl, ?_⟩, .push (.reg h), trivial⟩
  simp [kind, h]

/-- A value that is left is taken into a register. -/
theorem Yields.pop (h : S.Yields f t addr c ty) (x : Reg) :
    S.Keeps f t addr (c ++ Code.ofInstrs [.pop (.reg x)]) ∧
      (S.walk f t addr (c ++ Code.ofInstrs [.pop (.reg x)])).regs x = some ty := by
  obtain ⟨⟨born, -, htemps⟩, hacc⟩ := h
  refine ⟨⟨?_, accepted_append.mpr ⟨hacc, .pop htemps, trivial⟩⟩, ?_⟩
  · simp [htemps]
  · simp [htemps]

/-! ## Operators -/

/-- The code that pushes a truth value. -/
theorem yields_zeroTest {zero : Bool} (hs : S.Staged f t addr (zeroTest zero)) :
    S.Yields f t addr (zeroTest zero) .boolean := by
  simp only [zeroTest, Code.ofInstrs_cons, Code.ofInstrs_nil, staged_cons_instr, after_ldi,
    after_rjmpIfZero_imm] at hs
  obtain ⟨-, -, -, -, -, hload, hskip, -⟩ := hs
  obtain ⟨j, hj, hop, -⟩ := exists_of_placed hload
  refine ⟨⟨addr + 4, .inl rfl, rfl⟩, .load, .skip ?_ hj hop, .load, .push (.reg rfl), trivial⟩
  -- the value that is loaded in between has the type of the first one
  rw [show addr + 1 + 2 = addr + 1 + 1 + 1 from rfl, hskip]
  refine ⟨rfl, fun {r ty} h => ?_⟩
  by_cases hr : r = .r2
  · subst hr
    rw [Stage.regs_set_self] at h
    rw [after_ldi, Stage.regs_set_self]
    exact h
  · rwa [Stage.regs_set_of_ne hr] at h

/-- The operations of the machine that combine two registers. -/
def IsAlu (op : OpCode) : Prop := op ∈ [OpCode.add, .sub, .mul, .div, .and, .or, .xor, .cp]

theorem after_compute (hop : IsAlu op) (ha : t.regs x = some a) (hb : t.regs y = some b)
    (hty : aluType op a b = some ty) :
    S.after f t addr (.binary op (.reg x) (.reg y)) = t.set x (some ty) := by
  rw [after_alu hop, ha, hb]
  exact congrArg _ hty

theorem accepts_compute (ha : t.regs x = some a) (hb : t.regs y = some b)
    (hty : aluType op a b = some ty) :
    S.Accepts f t addr (Instr.binary op (.reg x) (.reg y)).op
      (Instr.binary op (.reg x) (.reg y)).dest (Instr.binary op (.reg x) (.reg y)).src
      (Instr.binary op (.reg x) (.reg y)).reserves := by
  have hres : (Instr.binary op (.reg x) (.reg y)).reserves = false := by
    simp [Instr.reserves, Instr.binary]
  rw [hres]
  exact .compute ha hb hty

/-- An operation on two registers, in front of code that leaves a value. -/
theorem Yields.compute (hop : IsAlu op) {result : Ty} (ha : t.regs x = some a)
    (hb : t.regs y = some b) (hty : aluType op a b = some result)
    (h : S.Yields f (t.set x (some result)) (addr + 1) c ty) :
    S.Yields f t addr (.instr (.binary op (.reg x) (.reg y)) :: c) ty :=
  h.instr (after_compute hop ha hb hty) rfl (accepts_compute ha hb hty)

/-- An operation on `R0` and `R1`. -/
theorem yields_aluCode (hop : IsAlu op) (ha : t.regs .r0 = some a) (hb : t.regs .r1 = some b)
    (hty : aluType op a b = some ty) : S.Yields f t addr (aluCode op) ty :=
  .compute hop ha hb hty (yields_push_reg (Stage.regs_set_self _ _ _))

/-- The remainder of integers is made of integers. -/
theorem types_remainder (h : binaryType .mod a b = .ok ty) :
    ty = .int ∧ aluType .div a b = some .int ∧ aluType .mul .int b = some .int ∧
      aluType .sub a .int = some .int := by
  cases a <;> cases b <;> cases h <;> exact ⟨rfl, rfl, rfl, rfl⟩

theorem yields_remainderCode (ha : t.regs .r0 = some a) (hb : t.regs .r1 = some b)
    (hty : binaryType .mod a b = .ok ty) : S.Yields f t addr remainderCode ty := by
  obtain ⟨rfl, hdiv, hmul, hsub⟩ := types_remainder hty
  have hmov : S.after f t addr (.mov r2 r0) = t.set .r2 (some a) := by
    rw [r2, after_mov_reg, r0, kind, ha]
  refine Yields.instr hmov rfl (.copy (.reg ha)) ?_
  -- the quotient and its product with `R1` are in `R0`, the dividend waits in `R2`
  refine Yields.compute (by simp [IsAlu]) ?_ ?_ hdiv ?_
  · rw [Stage.regs_set_of_ne (by decide), ha]
  · rw [Stage.regs_set_of_ne (by decide), hb]
  refine Yields.compute (by simp [IsAlu]) (Stage.regs_set_self _ _ _) ?_ hmul ?_
  · rw [Stage.regs_set_of_ne (by decide), Stage.regs_set_of_ne (by decide), hb]
  refine Yields.compute (by simp [IsAlu]) ?_ (Stage.regs_set_self _ _ _) hsub ?_
  · rw [Stage.regs_set_of_ne (by decide), Stage.regs_set_of_ne (by decide), Stage.regs_set_self]
  exact yields_push_reg (Stage.regs_set_self _ _ _)

theorem aluType_cp {op : BinaryOp} (hop : op ∈ [BinaryOp.eq, .ne, .lt, .le, .gt, .ge])
    (h : binaryType op a b = .ok ty) : ty = .boolean ∧ aluType .cp a b = some .int := by
  fin_cases hop <;> cases a <;> cases b <;> cases h <;> exact ⟨rfl, rfl⟩

/-- A step by one of a number. -/
theorem accepts_step {op : UnaryOp} (hty : ty = .int ∨ ty = .double) (ho : S.Sees f t o ty)
    (hne : ∀ v, o ≠ .imm v) :
    S.Accepts f t addr (Instr.unary (stepCode op) o).op (Instr.unary (stepCode op) o).dest
      (Instr.unary (stepCode op) o).src (Instr.unary (stepCode op) o).reserves := by
  rw [Instr.reserves_step]
  exact .change (stepCode_eq op) hty ho hne

/-- A comparison, with a step by one of its sign or without. -/
theorem yields_comparisonCode (shift : Option UnaryOp) {zero : Bool} (ha : t.regs .r0 = some a)
    (hb : t.regs .r1 = some b) (hty : aluType .cp a b = some .int)
    (hs : S.Staged f t addr
      (comparisonCode (shift.toList.map fun op => .unary (stepCode op) r0) zero)) :
    S.Yields f t addr (comparisonCode (shift.toList.map fun op => .unary (stepCode op) r0) zero)
      .boolean := by
  rw [comparisonCode, staged_append] at hs
  refine Keeps.yields ?_ (yields_zeroTest hs.2)
  have hcp : S.after f t addr (.binary .cp r0 r1) = t.set .r0 (some .int) :=
    after_compute (by simp [IsAlu]) ha hb hty
  cases shift with
  | none => exact ⟨by simp [hcp], accepts_compute ha hb hty, trivial⟩
  | some op =>
    refine ⟨?_, accepts_compute ha hb hty, ?_, trivial⟩
    · simp [hcp]
    · rw [hcp]
      exact accepts_step (.inl rfl) (.reg (Stage.regs_set_self _ _ _)) (by simp [r0])

/-- The code of an operator on `R0` and `R1` leaves a value of the type of the operator. -/
theorem yields_applyCode {op : BinaryOp} (hop : isLogical op = false) (ha : t.regs .r0 = some a)
    (hb : t.regs .r1 = some b) (hty : binaryType op a b = .ok ty)
    (hs : S.Staged f t addr (applyCode op)) : S.Yields f t addr (applyCode op) ty := by
  have halu {op' : OpCode} (hop' : IsAlu op')
      (h : aluType op' a b = (binaryType op a b).toOption) : S.Yields f t addr (aluCode op') ty :=
    yields_aluCode hop' ha hb (by rw [h, hty]; rfl)
  cases op with
  | add | sub | mul | div | bitAnd | bitOr | bitXor => exact halu (by simp [IsAlu]) rfl
  | mod => exact yields_remainderCode ha hb hty
  | eq | ne =>
    obtain ⟨rfl, hcp⟩ := aluType_cp (by simp) hty
    exact yields_comparisonCode none ha hb hcp hs
  | lt | ge =>
    obtain ⟨rfl, hcp⟩ := aluType_cp (by simp) hty
    exact yields_comparisonCode (some .inc) ha hb hcp hs
  | gt | le =>
    obtain ⟨rfl, hcp⟩ := aluType_cp (by simp) hty
    exact yields_comparisonCode (some .dec) ha hb hcp hs
  | and | or => cases hop

/-- An operator on the values of two expressions. -/
theorem yields_binaryCode {op : BinaryOp} {left right : Code} (hop : isLogical op = false)
    (hty : binaryType op a b = .ok ty) (hs : S.Staged f t addr (binaryCode op left right))
    (hleft : S.Yields f t addr left a)
    (hright : S.Yields f (S.walk f t addr left) (addr + left.size) right b) :
    S.Yields f t addr (binaryCode op left right) ty := by
  rw [binaryCode, staged_append] at hs
  obtain ⟨⟨born, -, htemps⟩, hacc⟩ := hleft
  obtain ⟨⟨born', -, htemps'⟩, hacc'⟩ := hright
  rw [htemps] at htemps'
  refine Keeps.yields ⟨?_, ?_⟩ (yields_applyCode hop ?_ ?_ hty hs.2)
  · simp [htemps', r0, r1]
  · simp only [accepted_append, walk_append]
    exact ⟨⟨hacc, hacc'⟩, .pop htemps', .pop (congrArg List.tail htemps'), trivial⟩
  · simp [htemps', r0, r1]
  · simp [htemps', r0, r1, Stage.regs_pop_of_ne (show Reg.r1 ≠ .r0 by decide)]

/-- The type of an operator on one operand, by operation of the machine. -/
theorem aluType_sub_of_neg (h : unaryType .neg a = .ok ty) : aluType .sub .int a = some ty := by
  cases a <;> cases h <;> rfl

/-- An operator on the value of an expression. -/
theorem yields_unaryCode {op : UnaryOp} (hop : isStep op = false) (hty : unaryType op a = .ok ty)
    (hs : S.Staged f t addr (unaryCode op c)) (hc : S.Yields f t addr c a) :
    S.Yields f t addr (unaryCode op c) ty := by
  cases op with
  | neg =>
    obtain ⟨hkeeps, hreg⟩ := hc.pop .r1
    have hcode : unaryCode .neg c = (c ++ Code.ofInstrs [.pop r1]) ++
        Code.ofInstrs [.ldi .r0 (.int 0), .binary .sub r0 r1, .push r0] := by
      simp [unaryCode]
    rw [hcode]
    refine hkeeps.yields ?_
    refine Yields.instr after_ldi rfl .load ?_
    refine Yields.compute (by simp [IsAlu]) (Stage.regs_set_self _ _ _) ?_ (aluType_sub_of_neg hty)
      (yields_push_reg (Stage.regs_set_self _ _ _))
    rw [Stage.regs_set_of_ne (by decide)]
    exact hreg
  | not =>
    obtain ⟨hkeeps, -⟩ := hc.pop .r0
    have hcode : unaryCode .not c = (c ++ Code.ofInstrs [.pop r0]) ++ zeroTest true := by
      simp [unaryCode]
    obtain rfl : ty = .boolean := by
      cases a <;> cases hty <;> rfl
    rw [hcode] at hs ⊢
    exact hkeeps.yields (yields_zeroTest (staged_append.mp hs).2)
  | pos =>
    obtain rfl : ty = a := by
      cases a <;> cases hty <;> rfl
    simpa [unaryCode] using hc
  | inc => cases hop
  | dec => cases hop

/-! ## Operators that may skip their right side -/

/-- The code behind a logical operator can be reached at both its labels. -/
theorem opens_of_truthCode {l : TruthLabels} (hs : S.Staged f t addr (truthCode l))
    (hr : t.regs .r2 = none) : S.Opens f t.temps l.yes ∧ S.Opens f t.temps l.no := by
  refine ⟨opens_of_staged hs hr, ?_⟩
  obtain ⟨-, -, -, -, -, hno⟩ := hs
  have hopens := opens_of_staged hno rfl
  simpa using hopens

theorem yields_truthCode {l : TruthLabels} (hs : S.Staged f t addr (truthCode l)) :
    S.Yields f t addr (truthCode l) .boolean := by
  obtain ⟨-, -, -, -, -, -, -, -, hdone, hstage, -⟩ := hs
  refine ⟨⟨addr + 4, .inl rfl, rfl⟩, .load, ?_, .load, .push (.reg rfl), trivial⟩
  -- both ways to the last label load a truth value, and the label keeps that alone
  refine Accepts.jump (c := none) hdone ?_ (by rw [hstage]; rfl)
  rw [hstage]
  refine ⟨rfl, fun {r ty} h => ?_⟩
  by_cases hr : r = .r2
  · subst hr
    exact h
  · simp [Stage.atLabel, hr] at h

theorem calm_popTest (l : String) : S.Calm f (popTest l) :=
  .instr (.instr calm_nil (by simp [Instr.rjmpIfZero, Instr.binary]))
    (by simp [Instr.pop, Instr.unary, r0])

/-- A value that is left is tested. -/
theorem Yields.temps_popTest (h : S.Yields f t addr c ty) (l : String) :
    (S.walk f t addr (c ++ popTest l)).temps = t.temps := by
  obtain ⟨⟨born, -, htemps⟩, -⟩ := h
  simp [popTest, r0, htemps]

theorem Yields.popTest (h : S.Yields f t addr c ty) (hl : S.Opens f t.temps l) :
    S.Keeps f t addr (c ++ popTest l) := by
  refine ⟨h.temps_popTest l, ?_⟩
  obtain ⟨⟨born, -, htemps⟩, hacc⟩ := h
  have hpop : (S.after f (S.walk f t addr c) (addr + c.size) (.pop r0)).temps = t.temps :=
    congrArg List.tail htemps
  rw [← hpop] at hl
  exact accepted_append.mpr ⟨hacc, .pop htemps, hl.accepts_rjmpIfZero, trivial⟩

/-- Both sides of a conjunction are tested, and a test that fails leads to the second label. -/
theorem yields_andCode {l : TruthLabels} {left right : Code} (hr : t.regs .r2 = none)
    (hcalm : S.Calm f left) (hcalm' : S.Calm f right)
    (hs : S.Staged f t addr (andCode l left right)) (hleft : S.Yields f t addr left a)
    (hright : S.Yields f (S.walk f t addr (left ++ popTest l.no))
      (addr + (left ++ popTest l.no).size) right b) :
    S.Yields f t addr (andCode l left right) .boolean := by
  have hcode : andCode l left right =
      (left ++ popTest l.no) ++ (right ++ popTest l.no) ++ truthCode l := by
    simp [andCode]
  rw [hcode, staged_append] at hs
  rw [hcode]
  have htemps : (S.walk f t addr ((left ++ popTest l.no) ++ (right ++ popTest l.no))).temps =
      t.temps := by
    rw [walk_append, hright.temps_popTest, hleft.temps_popTest]
  have hquiet : S.Calm f ((left ++ popTest l.no) ++ (right ++ popTest l.no)) :=
    (hcalm.append (calm_popTest _)).append (hcalm'.append (calm_popTest _))
  obtain ⟨-, hno⟩ := opens_of_truthCode hs.2 (hquiet hr)
  rw [htemps] at hno
  have hno' : S.Opens f (S.walk f t addr (left ++ popTest l.no)).temps l.no := by
    rwa [hleft.temps_popTest]
  exact ((hleft.popTest hno).append (hright.popTest hno')).yields (yields_truthCode hs.2)

/-- The left side of a disjunction with its test. If it holds, the right side is skipped. -/
def disjunct (yes rhs : String) (left : Code) : Code :=
  left ++ popTest rhs ++ [.instr (.rjmp (.label yes)), .label rhs]

theorem orCode_eq (l : TruthLabels) (rhs : String) (left right : Code) :
    orCode l rhs left right =
      disjunct l.yes rhs left ++ (right ++ popTest l.no) ++ truthCode l := by
  simp [orCode, disjunct]

/-- What the left side of a disjunction leaves: behind the jump nothing is known of registers. -/
theorem Yields.walk_disjunct (h : S.Yields f t addr c a) (yes rhs : String) :
    (S.walk f t addr (disjunct yes rhs c)).temps = t.temps ∧
      (S.walk f t addr (disjunct yes rhs c)).regs .r2 = none := by
  rw [disjunct, walk_append, walk_cons_instr, after_rjmp]
  exact ⟨h.temps_popTest rhs, rfl⟩

theorem Yields.disjunct {yes rhs : String} (h : S.Yields f t addr c a)
    (hs : S.Staged f t addr (disjunct yes rhs c)) (hyes : S.Opens f t.temps yes) :
    S.Keeps f t addr (disjunct yes rhs c) := by
  have htemps := h.temps_popTest rhs
  have hrhs : S.Opens f t.temps rhs := by
    have hlabel := (staged_append.mp hs).2.2.2
    rw [after_rjmp] at hlabel
    have hopens := opens_of_staged hlabel rfl
    rwa [Stage.temps_forget, htemps] at hopens
  rw [← htemps] at hyes
  exact ⟨(h.walk_disjunct yes rhs).1,
    accepted_append.mpr ⟨(h.popTest hrhs).2, hyes.accepts_rjmp, trivial⟩⟩

/-- A side of a disjunction that fails leads on, and one that holds leads to the first label. -/
theorem yields_orCode {l : TruthLabels} {rhs : String} {left right : Code}
    (hcalm : S.Calm f right) (hs : S.Staged f t addr (orCode l rhs left right))
    (hleft : S.Yields f t addr left a)
    (hright : S.Yields f (S.walk f t addr (disjunct l.yes rhs left))
      (addr + (disjunct l.yes rhs left).size) right b) :
    S.Yields f t addr (orCode l rhs left right) .boolean := by
  obtain ⟨htemps, hquiet⟩ := hleft.walk_disjunct l.yes rhs
  rw [orCode_eq, staged_append] at hs
  rw [orCode_eq]
  have htemps' : (S.walk f t addr (disjunct l.yes rhs left ++ (right ++ popTest l.no))).temps =
      t.temps := by
    rw [walk_append, hright.temps_popTest, htemps]
  have hquiet' : (S.walk f t addr (disjunct l.yes rhs left ++ (right ++ popTest l.no))).regs .r2 =
      none := by
    rw [walk_append]
    exact (hcalm.append (calm_popTest _)) hquiet
  obtain ⟨hyes, hno⟩ := opens_of_truthCode hs.2 hquiet'
  rw [htemps'] at hyes hno
  have hfirst := hleft.disjunct (staged_append.mp hs.1).1 hyes
  rw [← htemps] at hno
  exact (hfirst.append (hright.popTest hno)).yields (yields_truthCode hs.2)

/-! ## Code that says nothing of `R2` -/

theorem calm_ofInstrs {is : List Instr} (h : ∀ i ∈ is, i.dest ≠ some (.reg .r2)) :
    S.Calm f (Code.ofInstrs is) := by
  induction is with
  | nil => exact calm_nil
  | cons i is ih =>
    exact .instr (ih fun j hj => h j (List.mem_cons_of_mem i hj)) (h i List.mem_cons_self)

theorem operand_ne_reg (slot : Slot) (index : Option Reg) (x : Reg) :
    slot.operand index ≠ .reg x := by
  cases slot <;> simp [Slot.operand]

theorem calm_zeroTest (zero : Bool) : S.Calm f (zeroTest zero) := fun _ _ _ => rfl

theorem calm_truthCode (l : TruthLabels) : S.Calm f (truthCode l) := fun _ _ _ => rfl

theorem calm_applyCode (op : BinaryOp) : S.Calm f (applyCode op) := by
  have halu (op : OpCode) : S.Calm f (aluCode op) :=
    calm_ofInstrs (by simp [Instr.binary, Instr.push, Instr.unary, r0])
  have hcomparison {shift : List Instr} {zero : Bool}
      (h : ∀ i ∈ shift, i.dest ≠ some (.reg .r2)) : S.Calm f (comparisonCode shift zero) := by
    refine Calm.append (calm_ofInstrs ?_) (calm_zeroTest zero)
    simpa [Instr.binary, r0] using h
  cases op with
  | add | sub | mul | div | bitAnd | bitOr | bitXor => exact halu _
  | mod => exact fun _ _ _ => rfl
  | eq | ne => exact hcomparison (by simp)
  | lt | ge | gt | le => exact hcomparison (by simp [Instr.unary, r0])
  | and | or => exact calm_nil

end Stepwise.TypedSetting
