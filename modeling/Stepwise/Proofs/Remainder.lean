import Mathlib
import Stepwise.Proofs.StraightCode

/-!
# Remainders

The machine has no instruction for remainders. What `%` stands for is what the quotient, multiplied
by the divisor again, leaves of the dividend. All three operations wrap around, and one quotient
does not fit a machine word: that of the least integer by `-1`. The remainder is right there too,
because wrapping is lost in a difference that is itself a machine word.

## Main definitions

* `IsTruncatedRemainder`: the remainder of a division that rounds toward zero
* `Snippet.remainderSteps`: the instructions that leave a remainder in `R2`

## Main results

* `IsTruncatedRemainder.unique`: there is only one remainder
* `sub_div_mul`: the wrapped difference is the remainder
* `remainder_truncates`: constant folding and generated code compute it
-/

namespace Stepwise

open Lowering Snippet

/-- The remainder of a division that rounds toward zero: it is smaller than the divisor, and zero or
on the side of zero where the dividend is. -/
structure IsTruncatedRemainder (x y r : Int) : Prop where
  quotient : ∃ q, x = q * y + r
  small : |r| < |y|
  sign : r = 0 ∨ r.sign = x.sign

namespace IsTruncatedRemainder

variable {x y r s : Int}

theorem tmod (x : Int) {y : Int} (hy : y ≠ 0) : IsTruncatedRemainder x y (x.tmod y) where
  quotient := ⟨x.tdiv y, (Int.tdiv_mul_add_tmod x y).symm⟩
  small := by
    rw [Int.abs_eq_natAbs, Int.abs_eq_natAbs, Int.natAbs_tmod]
    exact_mod_cast Nat.mod_lt _ (Int.natAbs_pos.mpr hy)
  sign := by
    rw [Int.sign_tmod]
    split
    next hdvd => exact .inl (Int.tmod_eq_zero_of_dvd hdvd)
    next => exact .inr rfl

/-- There is only one remainder. -/
theorem unique (h : IsTruncatedRemainder x y r) (h' : IsTruncatedRemainder x y s) : r = s := by
  obtain ⟨q, hq⟩ := h.quotient
  obtain ⟨p, hp⟩ := h'.quotient
  have hdvd : |y| ∣ r - s := by
    rw [abs_dvd]
    exact ⟨p - q, by linarith⟩
  have hr := abs_lt.mp h.small
  have hs := abs_lt.mp h'.small
  -- two remainders on the same side of zero are less than a divisor apart
  have hlt : |r - s| < |y| := by
    rw [abs_lt]
    rcases h.sign with rfl | hsr
    · omega
    rcases h'.sign with rfl | hss
    · omega
    have hsame : r.sign = s.sign := hsr.trans hss.symm
    rcases lt_trichotomy r 0 with hneg | rfl | hpos
    · rw [Int.sign_eq_neg_one_of_neg hneg] at hsame
      have hneg' := Int.neg_of_sign_eq_neg_one hsame.symm
      omega
    · omega
    · rw [Int.sign_eq_one_of_pos hpos] at hsame
      have hpos' := Int.pos_of_sign_eq_one hsame.symm
      omega
  exact sub_eq_zero.mp (Int.eq_zero_of_abs_lt_dvd hdvd hlt)

end IsTruncatedRemainder

/-- **The wrapped difference is the remainder.** Quotient, product and difference are taken modulo
`2 ^ 64`, and the remainder is a machine word. -/
theorem sub_div_mul (x y : Int64) : x - x / y * y = x % y := by
  apply Int64.toInt_inj.mp
  calc (x - x / y * y).toInt
      = (x.toInt - x.toInt.tdiv y.toInt * y.toInt).bmod (2 ^ 64) := by
        rw [Int64.toInt_sub, Int64.toInt_mul, Int64.toInt_div, Int.bmod_mul_bmod,
          Int.sub_bmod_bmod]
    _ = (x.toInt.tmod y.toInt).bmod (2 ^ 64) := by rw [Int.tmod_def, Int.mul_comm]
    _ = (x % y).toInt := by
        rw [← Int64.toInt_mod]
        exact Int64.toInt_bmod (x % y)

theorem isTruncatedRemainder_mod (x : Int64) {y : Int64} (hy : y ≠ 0) :
    IsTruncatedRemainder x.toInt y.toInt (x % y).toInt := by
  rw [Int64.toInt_mod]
  apply IsTruncatedRemainder.tmod
  intro hzero
  exact hy (Int64.toInt_inj.mp hzero)

/-! ## Operations on integers and truth values -/

section Integers

variable {a b : Value} {x y : Int64} (ha : a.toInt? = some x) (hb : b.toInt? = some y)

include ha hb

theorem promote?_of_toInt? : promote? a b = some (.ints x y) := by
  simp only [promote?, ha, hb]

theorem alu_sub_of_toInt? : alu .sub a b = .ok (.int (x - y)) := by
  simp only [alu, numeric, promote?_of_toInt? ha hb]

theorem alu_mul_of_toInt? : alu .mul a b = .ok (.int (x * y)) := by
  simp only [alu, numeric, promote?_of_toInt? ha hb]

theorem alu_div_of_toInt? (hy : y ≠ 0) : alu .div a b = .ok (.int (x / y)) := by
  simp only [alu, numeric, promote?_of_toInt? ha hb, if_neg hy]

omit hb in
theorem alu_div_of_toInt?_zero (hb : b.toInt? = some 0) : alu .div a b = .error .divisionByZero := by
  simp only [alu, numeric, promote?_of_toInt? ha hb, if_true]

end Integers

/-! ## Code -/

/-- The remainder of `R0` by `R1` is computed in `R2`. -/
def Snippet.remainderSteps : List Instr :=
  [.mov r2 r0, .binary .div r0 r1, .binary .mul r0 r1, .binary .sub r2 r0]

/-- The registers once the remainder of `a` is in `R2`: `R0` has gone through the quotient to its
product with the divisor. -/
def Registers.withRemainder (rs : Registers) (a : Value) (x y : Int64) : Registers :=
  (((rs.set .r2 a).set .r0 (.int (x / y))).set .r0 (.int (x / y * y))).set .r2 (.int (x % y))

theorem Registers.get_withRemainder_of_ne (rs : Registers) (a : Value) (x y : Int64) {q : Reg}
    (h₀ : q ≠ .r0) (h₂ : q ≠ .r2) : (rs.withRemainder a x y).get q = rs.get q := by
  unfold withRemainder
  rw [get_set_of_ne _ h₂.symm, get_set_of_ne _ h₀.symm, get_set_of_ne _ h₀.symm,
    get_set_of_ne _ h₂.symm]

section Steps

variable {a b : Value} {x y : Int64} {frame : FrameLayout} {s : State}
  (ha : a.toInt? = some x) (h₀ : s.registers.get .r0 = a) (h₁ : s.registers.get .r1 = b)

include h₀ in
/-- The dividend is kept in `R2`. -/
theorem turns_keepDividend :
    Code.Turns frame [.instr (.mov r2 r0)] s (s.setRegister .r2 a) :=
  turns_mov ⟨rfl, rfl, rfl⟩ (settles_reg .r2) (settles_reg .r0) (congrArg Except.ok h₀) rfl

include ha h₀ h₁

/-- **The code of a remainder leaves it in `R2`.** -/
theorem turns_remainderSteps (hb : b.toInt? = some y) (hy : y ≠ 0) :
    Code.Turns frame (Code.ofInstrs remainderSteps) s
      { s with registers := s.registers.withRemainder a x y } := by
  -- each instruction is stated with the registers that the ones before it leave
  have hdividend : (s.registers.set .r2 a).get .r0 = a := by
    rw [Registers.get_set_of_ne _ (by decide), h₀]
  have hdivisor : (s.registers.set .r2 a).get .r1 = b := by
    rw [Registers.get_set_of_ne _ (by decide), h₁]
  have hdiv : Code.Turns frame [.instr (.binary .div r0 r1)] (s.setRegister .r2 a)
      ((s.setRegister .r2 a).setRegister .r0 (.int (x / y))) := by
    apply turns_binary rfl
    show alu .div ((s.registers.set .r2 a).get .r0) ((s.registers.set .r2 a).get .r1) = _
    rw [hdividend, hdivisor, alu_div_of_toInt? ha hb hy]
  have hmul : Code.Turns frame [.instr (.binary .mul r0 r1)]
      ((s.setRegister .r2 a).setRegister .r0 (.int (x / y)))
      (((s.setRegister .r2 a).setRegister .r0 (.int (x / y))).setRegister .r0
        (.int (x / y * y))) := by
    apply turns_binary rfl
    show alu .mul (((s.registers.set .r2 a).set .r0 _).get .r0)
      (((s.registers.set .r2 a).set .r0 _).get .r1) = _
    rw [Registers.get_set_self, Registers.get_set_of_ne _ (by decide), hdivisor,
      alu_mul_of_toInt? rfl hb]
  have hsub : Code.Turns frame [.instr (.binary .sub r2 r0)]
      (((s.setRegister .r2 a).setRegister .r0 (.int (x / y))).setRegister .r0 (.int (x / y * y)))
      { s with registers := s.registers.withRemainder a x y } := by
    apply turns_binary rfl
    show alu .sub ((((s.registers.set .r2 a).set .r0 _).set .r0 _).get .r2)
      ((((s.registers.set .r2 a).set .r0 _).set .r0 _).get .r0) = _
    rw [Registers.get_set_self, Registers.get_set_of_ne _ (by decide),
      Registers.get_set_of_ne _ (by decide), Registers.get_set_self,
      alu_sub_of_toInt? ha rfl, sub_div_mul]
  exact (turns_keepDividend h₀).append (hdiv.append (hmul.append hsub))

/-- A remainder by zero fails at the quotient. -/
theorem stops_remainderSteps (hb : b.toInt? = some 0) :
    Code.Stops frame (Code.ofInstrs remainderSteps) s (.arithmetic .divisionByZero) := by
  have hdiv : Code.Stops frame [.instr (.binary .div r0 r1)] (s.setRegister .r2 a)
      (.arithmetic .divisionByZero) := by
    apply stops_binary rfl
    show alu .div ((s.registers.set .r2 a).get .r0) ((s.registers.set .r2 a).get .r1) = _
    rw [Registers.get_set_of_ne _ (by decide), Registers.get_set_of_ne _ (by decide), h₀, h₁,
      alu_div_of_toInt?_zero ha hb]
  exact .after (turns_keepDividend h₀) hdiv.append

end Steps

/-- **Remainders are truncated, over all of the machine words.** For integers and truth values,
constant folding and the code that `%` is lowered to give the remainder of the exact division, also
where the quotient wraps around, and a divisor that is zero fails in both. -/
theorem remainder_truncates {a b : Value} {x y : Int64} (ha : a.toInt? = some x)
    (hb : b.toInt? = some y) :
    (applyCode .mod = Code.ofInstrs remainderSteps ++ Code.ofInstrs [.push r2]) ∧
    (y ≠ 0 → ∃ r : Int64, IsTruncatedRemainder x.toInt y.toInt r.toInt ∧
      fold .mod a b = .ok (.int r) ∧
      ∀ (frame : FrameLayout) (s : State), s.registers.get .r0 = a → s.registers.get .r1 = b →
        ∃ registers : Registers, registers.get .r2 = .int r ∧
          (∀ q, q ≠ .r0 → q ≠ .r2 → registers.get q = s.registers.get q) ∧
          Code.Turns frame (Code.ofInstrs remainderSteps) s { s with registers := registers }) ∧
    (y = 0 → fold .mod a b = .error .divisionByZero ∧
      ∀ (frame : FrameLayout) (s : State), s.registers.get .r0 = a → s.registers.get .r1 = b →
        Code.Stops frame (Code.ofInstrs remainderSteps) s (.arithmetic .divisionByZero)) := by
  refine ⟨rfl, fun hy => ⟨x % y, isTruncatedRemainder_mod x hy, ?_, fun frame s h₀ h₁ => ?_⟩, ?_⟩
  · -- the quotient is an integer even if the operands are truth values
    simp only [fold, bind_eq_ok]
    refine ⟨_, alu_div_of_toInt? ha hb hy, _, alu_mul_of_toInt? rfl hb, ?_⟩
    rw [alu_sub_of_toInt? ha rfl, sub_div_mul]
  · exact ⟨s.registers.withRemainder a x y, Registers.get_set_self _ _ _,
      fun q => s.registers.get_withRemainder_of_ne a x y, turns_remainderSteps ha h₀ h₁ hb hy⟩
  · rintro rfl
    refine ⟨?_, fun frame s h₀ h₁ => stops_remainderSteps ha h₀ h₁ hb⟩
    simp only [fold, bind_eq_error]
    exact .inl (alu_div_of_toInt?_zero ha hb)

/-- The quotient of the least integer by `-1` wraps around to the least integer, and the remainder
is zero all the same. -/
theorem remainder_truncates_least :
    Int64.minValue / -1 = Int64.minValue ∧ (-1 : Int64) ≠ 0 ∧
      fold .mod (.int Int64.minValue) (.int (-1)) = .ok (.int 0) := by
  refine ⟨by decide, by decide, ?_⟩
  obtain ⟨-, htruncates, -⟩ :=
    remainder_truncates (a := .int Int64.minValue) (b := .int (-1)) rfl rfl
  obtain ⟨r, hr, hfold, -⟩ := htruncates (by decide)
  have hzero : r.toInt = (0 : Int64).toInt :=
    (hr.unique (.tmod Int64.minValue.toInt (by decide))).trans (by decide)
  rw [hfold, Int64.toInt_inj.mp hzero]

end Stepwise
