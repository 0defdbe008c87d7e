import Mathlib
import Stepwise.Format.Image
import Stepwise.Proofs.Operators

/-!
# Operators keep to their types

The compiler decides from the types of the operands whether an operator may stand between them, and
which type its result has. The arithmetic decides again, from the values. The two agree: an operator
that the compiler accepts has a result of the type that the compiler gives to it, up to a division
of integers by zero and a comparison with a double that is not a number.

Doubles are ordered unless one of them is not a number, and an integer is a number when it is taken
as a double.

## Main definitions

* `BinaryOp.isComparison`: the operators that compare
* `applyUnary`: the outcome of an operator on one value

## Main results

* `compareDoubles?_eq_none_iff`: doubles without an order
* `operators_keep_types`: accepted operators and their outcomes
-/

namespace Stepwise

/-! ## The order of doubles -/

section Doubles

open Float.Model

/-- Compared the other way round, the order is the opposite one. -/
theorem unpacked_compare_swap (a b : UnpackedFloat) :
    b.compare a = (a.compare b).map Ordering.swap := by
  cases a with
  | notANumber => cases b <;> rfl
  | infinity s => cases b with
    | infinity t => cases s <;> cases t <;> rfl
    | _ => cases s <;> rfl
  | zero s => cases b with
    | notANumber => rfl
    | zero t => rfl
    | infinity t => cases t <;> rfl
    | finite t m e hm => cases t <;> rfl
  | finite s m e hm => cases b with
    | notANumber => cases s <;> rfl
    | zero t => cases s <;> rfl
    | infinity t => cases t <;> rfl
    | finite t m' e' hm' =>
      have horder : (compare e' e).then (compare m' m) =
          ((compare e e').then (compare m m')).swap := by
        rw [Ordering.swap_then, ← Std.OrientedCmp.eq_swap, ← Std.OrientedCmp.eq_swap]
      cases s <;> cases t <;> simp only [UnpackedFloat.compare, Option.map_some, horder] <;> rfl

theorem unpacked_compare_eq_none_iff (a b : UnpackedFloat) :
    a.compare b = none ↔ a = .notANumber ∨ b = .notANumber := by
  cases a <;> cases b <;> simp only [UnpackedFloat.compare] <;> repeat' split
  all_goals simp_all

/-- **Two doubles have no order exactly if one of them is not a number.** -/
theorem compareDoubles?_eq_none_iff (x y : Float) :
    compareDoubles? x y = none ↔ x.isNaN = true ∨ y.isNaN = true := by
  have hlt (x y : Float) : x < y ↔ x.toModel.unpack.compare y.toModel.unpack = some .lt := by
    show decide ((x.toModel.unpack.compare y.toModel.unpack == some .lt) = true) = true ↔ _
    rw [decide_eq_true_iff, beq_iff_eq]
  have heq : (x == y) = true ↔ x.toModel.unpack.compare y.toModel.unpack = some .eq := by
    show (x.toModel.unpack.compare y.toModel.unpack == some .eq) = true ↔ _
    rw [beq_iff_eq]
  have hnan (x : Float) : x.isNaN = true ↔ x.toModel.unpack = .notANumber :=
    UnpackedFloat.isNaN_iff
  rw [hnan, hnan, ← unpacked_compare_eq_none_iff, compareDoubles?]
  simp only [hlt, heq, unpacked_compare_swap x.toModel.unpack y.toModel.unpack]
  cases x.toModel.unpack.compare y.toModel.unpack with
  | none => simp
  | some o => cases o <;> simp [Ordering.swap]

/-! ## Integers as doubles -/

/-- What is packed is a number, if it was one. -/
theorem unpack_pack_ne_notANumber {u : UnpackedFloat} (hu : u ≠ .notANumber) :
    (Float.Model.pack u).unpack ≠ .notANumber := by
  have hcomponents {s e m} (he : e ≠ -1#(Format.binary64.exponentBits)) :
      UnpackedFloat.unpack .binary64 (UnpackedFloat.packComponents .binary64 s e m) ≠
        .notANumber := by
    rw [UnpackedFloat.unpack]
    simp only [UnpackedFloat.unpackExponent_packComponents, if_neg he]
    split
    · split <;> simp
    · simp
  have hinfinity {s} : UnpackedFloat.unpack .binary64 (UnpackedFloat.packedInfinity .binary64 s) ≠
      .notANumber := by
    rw [UnpackedFloat.unpack, UnpackedFloat.packedInfinity]
    simp [UnpackedFloat.unpackExponent_packComponents, UnpackedFloat.unpackMantissa_packComponents]
  show UnpackedFloat.unpack .binary64 (UnpackedFloat.pack .binary64 u) ≠ .notANumber
  cases u with
  | notANumber => exact absurd rfl hu
  | infinity s => exact hinfinity
  | zero s => exact hcomponents (by decide)
  | finite s m e hm =>
    simp only [UnpackedFloat.pack]
    split
    · exact hinfinity
    next hsmall =>
      split
      · -- the exponent with all bits set would be too large
        refine hcomponents fun h => ?_
        have hexponent := congrArg BitVec.toNat h
        simp [Format.binary64] at hexponent hsmall
        omega
      · exact hcomponents (by decide)

theorem roundWithAccuracy_ne_notANumber {spec : Format} {s : UnpackedFloat.Sign} {m : Nat} {e : Int}
    {acc : UnpackedFloat.Accuracy} :
    UnpackedFloat.roundWithAccuracy spec s m e acc ≠ .notANumber := by
  simp only [UnpackedFloat.roundWithAccuracy]
  split <;> simp

theorem mul_finite_ne_notANumber {spec : Format} {u : UnpackedFloat} {s : UnpackedFloat.Sign}
    {m : Nat} {e : Int} {hm : 0 < m} (hu : u ≠ .notANumber) :
    UnpackedFloat.mul spec u (.finite s m e hm) ≠ .notANumber := by
  cases u with
  | notANumber => exact absurd rfl hu
  | infinity t => simp [UnpackedFloat.mul]
  | zero t => simp [UnpackedFloat.mul]
  | finite t m' e' hm' => exact roundWithAccuracy_ne_notANumber

/-- A natural number is a number when it is taken as a double. -/
theorem unpack_ofNat_ne_notANumber (n : Nat) :
    (Float.ofNat n).toModel.unpack ≠ .notANumber := by
  show (Float.ofScientific n false 0).toModel.unpack ≠ _
  rw [Float.ofScientific]
  split
  · -- a small number is converted exactly and multiplied by one
    have hone : (Float.exactlyRepresentablePowersOfTen[0]).toModel.unpack =
        .finite .positive (2 ^ 52) (-52) (by decide) := rfl
    have hword : UnpackedFloat.ofUInt64 .binary64 n.toUInt64 ≠ .notANumber := by
      simp only [UnpackedFloat.ofUInt64, UnpackedFloat.ofNat, UnpackedFloat.ofInt,
        UnpackedFloat.normalize]
      split
      · exact roundWithAccuracy_ne_notANumber
      · simp
      · exact roundWithAccuracy_ne_notANumber
    refine unpack_pack_ne_notANumber ?_
    show UnpackedFloat.mul .binary64 (Float.Model.pack _).unpack _ ≠ _
    rw [hone]
    exact mul_finite_ne_notANumber (unpack_pack_ne_notANumber hword)
  · refine unpack_pack_ne_notANumber ?_
    show UnpackedFloat.ofScientific .binary64 n 0 ≠ _
    rw [UnpackedFloat.ofScientific]
    split
    · simp
    split
    · simp
    split
    · simp
    · rw [if_pos le_rfl]
      apply mul_finite_ne_notANumber
      simp

theorem isNaN_ofWord (n : Int64) : (Decimal.ofWord n).isNaN = false := by
  have hne : (Decimal.ofWord n).toModel.unpack ≠ .notANumber := by
    rw [Decimal.ofWord]
    cases n.toInt with
    | ofNat k => exact unpack_ofNat_ne_notANumber k
    | negSucc k =>
      refine unpack_pack_ne_notANumber ?_
      have hk := unpack_ofNat_ne_notANumber (k + 1)
      show (Float.ofNat (k + 1)).toModel.unpack.neg ≠ _
      cases hu : (Float.ofNat (k + 1)).toModel.unpack <;> simp_all [UnpackedFloat.neg]
  exact Bool.eq_false_iff.mpr fun h => hne (UnpackedFloat.isNaN_iff.mp h)

end Doubles

/-! ## Outcomes -/

/-- The operators that compare their operands. -/
def BinaryOp.isComparison : BinaryOp → Bool
  | .eq | .ne | .lt | .le | .gt | .ge => true
  | _ => false

/-- The outcome of an operator on one value. -/
def applyUnary (op : UnaryOp) (a : Value) : Except ArithmeticError Value :=
  if Lowering.isStep op then increment (Lowering.stepCode op) a else foldUnary op a

section Outcomes

variable {a b : Value} {ty : Ty}

theorem exists_numeric {op : OpCode} {ints : Int64 → Int64 → Except ArithmeticError Value}
    {doubles : Float → Float → Float} (ha : a.ty.isScalar = true) (hb : b.ty.isScalar = true)
    (hints : ∀ x y, a.toInt? = some x → b.toInt? = some y → ∃ v, ints x y = .ok v) :
    ∃ v, numeric op ints doubles a b = .ok v := by
  unfold numeric promote?
  cases a <;> cases ha <;> cases b <;> cases hb
  all_goals first | exact hints _ _ rfl rfl | exact ⟨_, rfl⟩

theorem exists_bitwise {op : OpCode} {truths : Bool → Bool → Bool} {ints : Int64 → Int64 → Int64}
    (ha : a.ty.isIntegral = true) (hb : b.ty.isIntegral = true) :
    ∃ v, bitwise op truths ints a b = .ok v := by
  cases a <;> cases ha <;> cases b <;> cases hb <;> exact ⟨_, rfl⟩

/-- An integer or a truth value is zero exactly if it counts as false. -/
theorem isZero_of_toInt? {y : Int64} (h : b.toInt? = some y) : b.isZero = true ↔ y = 0 := by
  cases b with
  | int n =>
    cases h
    exact beq_iff_eq
  | bool t =>
    cases h
    cases t <;> decide
  | double x => cases h
  | str t => cases h

theorem isIntegral_of_toInt? {y : Int64} (h : b.toInt? = some y) : b.ty.isIntegral = true := by
  cases b <;> cases h <;> rfl

/-- A quotient of numbers, or a division of integers by zero. -/
theorem exists_quotient (ha : a.ty.isScalar = true) (hb : b.ty.isScalar = true) :
    (∃ v, alu .div a b = .ok v) ∨ (alu .div a b = .error .divisionByZero ∧
      a.ty.isIntegral = true ∧ b.ty.isIntegral = true ∧ b.isZero = true) := by
  by_cases hzero : ∃ x, a.toInt? = some x ∧ b.toInt? = some 0
  · obtain ⟨x, hx, hy⟩ := hzero
    refine .inr ⟨?_, isIntegral_of_toInt? hx, isIntegral_of_toInt? hy, (isZero_of_toInt? hy).mpr rfl⟩
    simp [alu, numeric, promote?, hx, hy]
  · refine .inl (exists_numeric ha hb fun x y hx hy => ?_)
    have hy₀ : y ≠ 0 := by
      rintro rfl
      exact hzero ⟨x, hx, hy⟩
    exact ⟨_, if_neg hy₀⟩

theorem isScalar_of_isIntegral {t : Ty} (h : t.isIntegral = true) : t.isScalar = true := by
  cases t <;> cases h <;> rfl

/-- A remainder of integers, or a division by zero. -/
theorem exists_remainder (ha : a.ty.isIntegral = true) (hb : b.ty.isIntegral = true) :
    (∃ v, fold .mod a b = .ok v) ∨
      (fold .mod a b = .error .divisionByZero ∧ b.isZero = true) := by
  rcases exists_quotient (isScalar_of_isIntegral ha) (isScalar_of_isIntegral hb) with
    ⟨q, hq⟩ | ⟨hq, -, -, hzero⟩
  · -- the quotient is an integer, so the product and the difference exist
    have hqty : q.ty = .int := (ty_of_alu (by simp) hq).trans (arithmeticType_of_isIntegral ha hb)
    obtain ⟨p, hp⟩ : ∃ p, alu .mul q b = .ok p :=
      exists_numeric (by rw [hqty]; rfl) (isScalar_of_isIntegral hb) fun _ _ _ _ => ⟨_, rfl⟩
    have hpty : p.ty = .int := by
      rw [ty_of_alu (by simp) hp, hqty]
      exact arithmeticType_of_isIntegral rfl hb
    obtain ⟨v, hv⟩ : ∃ v, alu .sub a p = .ok v :=
      exists_numeric (isScalar_of_isIntegral ha) (by rw [hpty]; rfl) fun _ _ _ _ => ⟨_, rfl⟩
    refine .inl ⟨v, ?_⟩
    simp only [fold, bind_eq_ok]
    exact ⟨q, hq, p, hp, hv⟩
  · refine .inr ⟨?_, hzero⟩
    simp only [fold, bind_eq_error]
    exact .inl hq

/-- A number that has no order to another one is a double. -/
theorem isNaN_of_toDouble? {x : Float} (h : a.toDouble? = some x) (hx : x.isNaN = true) :
    a.isNaN = true := by
  cases a with
  | int n =>
    cases h
    rw [isNaN_ofWord] at hx
    cases hx
  | double y =>
    cases h
    exact hx
  | bool t =>
    have hnumber : Float.isNaN 1.0 = false ∧ Float.isNaN 0.0 = false := by decide +kernel
    cases h
    cases t <;> simp_all
  | str t => cases h

theorem promote?_of_toDouble? {x y : Float} (hx : a.toDouble? = some x) (hy : b.toDouble? = some y) :
    (∃ m n, promote? a b = some (.ints m n)) ∨ promote? a b = some (.doubles x y) := by
  unfold promote?
  split
  · exact .inl ⟨_, _, rfl⟩
  · rw [hx, hy]
    exact .inr rfl

/-- **Texts are ordered, and so are numbers, unless one of them is not a number.** -/
theorem exists_order (h : a.ty = .string ∧ b.ty = .string ∨
    a.ty.isScalar = true ∧ b.ty.isScalar = true) :
    (∃ o, ordering a b = .ok o) ∨
      (ordering a b = .error (.incomparable a.inspect b.inspect) ∧
        (a.isNaN = true ∨ b.isNaN = true)) := by
  rcases h with ⟨ha, hb⟩ | ⟨ha, hb⟩
  · cases a <;> cases ha
    cases b <;> cases hb
    exact .inl ⟨_, rfl⟩
  · obtain ⟨x, hx⟩ : ∃ x, a.toDouble? = some x := by cases a <;> cases ha <;> exact ⟨_, rfl⟩
    obtain ⟨y, hy⟩ : ∃ y, b.toDouble? = some y := by cases b <;> cases hb <;> exact ⟨_, rfl⟩
    -- two integers are compared as such, all other numbers as doubles
    have hints {m n : Int64} (hp : promote? a b = some (.ints m n)) :
        ordering a b = .ok (compareInts m n) := by
      cases a <;> cases ha <;> cases b <;> cases hb <;> simp only [ordering, hp]
    have hdoubles (hp : promote? a b = some (.doubles x y)) :
        ordering a b = (compareDoubles? x y).elim
          (.error (.incomparable a.inspect b.inspect)) .ok := by
      cases a <;> cases ha <;> cases b <;> cases hb <;> simp only [ordering, hp] <;>
        cases compareDoubles? x y <;> rfl
    rcases promote?_of_toDouble? hx hy with ⟨m, n, hp⟩ | hp
    · exact .inl ⟨_, hints hp⟩
    · rw [hdoubles hp]
      cases hc : compareDoubles? x y with
      | some o => exact .inl ⟨o, rfl⟩
      | none =>
        refine .inr ⟨rfl, ?_⟩
        rcases (compareDoubles?_eq_none_iff x y).mp hc with hnan | hnan
        · exact .inl (isNaN_of_toDouble? hx hnan)
        · exact .inr (isNaN_of_toDouble? hy hnan)

/-- An accepted operator has a result, but for a division by zero and a number without an order. -/
theorem exists_fold {op : BinaryOp} (h : binaryType op a.ty b.ty = .ok ty) :
    (∃ v, fold op a b = .ok v) ∨
      (fold op a b = .error .divisionByZero ∧ (op = .div ∨ op = .mod) ∧
        a.ty.isIntegral = true ∧ b.ty.isIntegral = true ∧ b.isZero = true) ∨
      (fold op a b = .error (.incomparable a.inspect b.inspect) ∧ op.isComparison = true ∧
        (a.isNaN = true ∨ b.isNaN = true)) := by
  -- all comparisons fold alike, through the sign that the machine computes
  have hcompare {op : BinaryOp} (hop : op.isComparison = true)
      (hfold : fold op a b = (alu .cp a b).map
        fun sign => .bool (comparison op (sign.toInt?.getD 0)))
      (hty : (if a.ty = .string ∧ b.ty = .string then .ok .boolean
        else (checkOperands op Ty.isScalar a.ty b.ty).map fun _ => .boolean) = .ok ty) :
      (∃ v, fold op a b = .ok v) ∨
        (fold op a b = .error (.incomparable a.inspect b.inspect) ∧ op.isComparison = true ∧
          (a.isNaN = true ∨ b.isNaN = true)) := by
    have hkinds : a.ty = .string ∧ b.ty = .string ∨
        a.ty.isScalar = true ∧ b.ty.isScalar = true := by
      split at hty
      next htexts => exact .inl htexts
      · obtain ⟨_, hcheck, -⟩ := map_eq_ok.mp hty
        exact .inr (checkOperands_eq_ok hcheck)
    rw [hfold, alu]
    rcases exists_order hkinds with ⟨o, ho⟩ | ⟨ho, hnan⟩
    · rw [ho]
      exact .inl ⟨_, rfl⟩
    · rw [ho]
      exact .inr ⟨rfl, hop, hnan⟩
  have hscalars {op : BinaryOp} {t : Ty}
      (hty : ((checkOperands op Ty.isScalar a.ty b.ty).map fun _ => t) = .ok ty) :
      a.ty.isScalar = true ∧ b.ty.isScalar = true := by
    obtain ⟨_, hcheck, -⟩ := map_eq_ok.mp hty
    exact checkOperands_eq_ok hcheck
  cases op with
  | add =>
    have htext : (a.isText || b.isText) = joinsTexts a.ty b.ty := by
      cases a <;> cases b <;> rfl
    rw [binaryType, ← htext] at h
    rw [fold, alu]
    split
    · exact .inl ⟨_, rfl⟩
    next hjoin =>
      rw [if_neg hjoin] at h
      obtain ⟨ha, hb⟩ := hscalars h
      exact .inl (exists_numeric ha hb fun _ _ _ _ => ⟨_, rfl⟩)
  | sub | mul =>
    obtain ⟨ha, hb⟩ := hscalars h
    exact .inl (exists_numeric ha hb fun _ _ _ _ => ⟨_, rfl⟩)
  | div =>
    obtain ⟨ha, hb⟩ := hscalars h
    exact (exists_quotient ha hb).imp_right fun hzero => .inl ⟨hzero.1, .inl rfl, hzero.2⟩
  | mod =>
    obtain ⟨_, hcheck, -⟩ := map_eq_ok.mp h
    obtain ⟨ha, hb⟩ := checkOperands_eq_ok hcheck
    exact (exists_remainder ha hb).imp_right fun hzero =>
      .inl ⟨hzero.1, .inr rfl, ha, hb, hzero.2⟩
  | bitAnd | bitOr | bitXor =>
    obtain ⟨_, hcheck, -⟩ := map_eq_ok.mp h
    obtain ⟨ha, hb⟩ := checkOperands_eq_ok hcheck
    exact .inl (exists_bitwise ha hb)
  | eq | ne | lt | le | gt | ge => exact (hcompare rfl rfl h).imp_right .inr
  | and | or => exact .inl ⟨_, rfl⟩

/-- An accepted operator on one value has a result. -/
theorem exists_applyUnary {op : UnaryOp} (h : unaryType op a.ty = .ok ty) :
    ∃ v, applyUnary op a = .ok v ∧ v.ty = ty := by
  have hstep {op : UnaryOp} (hop : Lowering.isStep op = true)
      (hnumber : a.ty = .int ∨ a.ty = .double) (hty : a.ty = ty) :
      ∃ v, applyUnary op a = .ok v ∧ v.ty = ty := by
    rw [applyUnary, if_pos hop, ← hty]
    exact increment_of_number (by cases op <;> simp [Lowering.stepCode]) hnumber
  cases op with
  | neg =>
    obtain ⟨v, hv⟩ : ∃ v, alu .sub (.int 0) a = .ok v :=
      exists_numeric rfl (by cases a <;> cases h <;> rfl) fun _ _ _ _ => ⟨_, rfl⟩
    exact ⟨v, hv, ty_of_foldUnary h hv⟩
  | pos => exact ⟨a, rfl, ty_of_foldUnary h rfl⟩
  | not => exact ⟨_, rfl, ty_of_foldUnary h rfl⟩
  | inc | dec =>
    refine hstep rfl ?_ ?_
    all_goals cases a <;> cases h <;> simp [Value.ty]

end Outcomes

/-- **An operator that the compiler accepts has an outcome of its type.** Between two values it has a
result of the type that the compiler gives to it, or divides integers by zero, or compares a double
that is not a number; an operator on one value always has such a result. -/
theorem operators_keep_types :
    (∀ (op : BinaryOp) (a b : Value) (ty : Ty), binaryType op a.ty b.ty = .ok ty →
      (∃ v, fold op a b = .ok v ∧ v.ty = ty) ∨
      (fold op a b = .error .divisionByZero ∧ (op = .div ∨ op = .mod) ∧
        a.ty.isIntegral = true ∧ b.ty.isIntegral = true ∧ b.isZero = true) ∨
      (fold op a b = .error (.incomparable a.inspect b.inspect) ∧ op.isComparison = true ∧
        (a.isNaN = true ∨ b.isNaN = true))) ∧
    ∀ (op : UnaryOp) (a : Value) (ty : Ty), unaryType op a.ty = .ok ty →
      ∃ v, applyUnary op a = .ok v ∧ v.ty = ty := by
  refine ⟨fun op a b ty hty => ?_, fun op a ty hty => exists_applyUnary hty⟩
  exact (exists_fold hty).imp_left fun ⟨v, hv⟩ => ⟨v, hv, ty_of_fold hty hv⟩

/-- The remainder of a truth value by the integer zero is accepted, and divides by zero. -/
theorem operators_keep_types_zeroDivisor :
    binaryType .mod .boolean .int = .ok .int ∧
      fold .mod (.bool true) (.int 0) = .error .divisionByZero := by
  refine ⟨rfl, ?_⟩
  rcases operators_keep_types.1 .mod (.bool true) (.int 0) .int rfl with
    ⟨v, hv, -⟩ | ⟨h, -⟩ | ⟨-, hop, -⟩
  · cases hv
  · exact h
  · cases hop

end Stepwise
