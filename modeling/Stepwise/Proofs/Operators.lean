import Mathlib
import Stepwise.Proofs.Simulation

/-!
# Operators in code

The code of an operator computes on the machine what the operator means: it takes its operands from
registers, changes nothing but registers, and pushes the result or fails with the fault that the
operator has. A result has the type that the compiler gives to the operator.

## Main definitions

* `foldUnary`: the result of an operator on one value
* `Registers.Keeps`: the registers that generated code does not calculate with are the same
* `Target.Calculates`: the machine computes a result

## Main results

* `calculates_applyCode`: the code of operators on two registers
* `ty_of_fold`, `ty_of_foldUnary`: the types of their results
-/

namespace Stepwise

open Lowering Snippet Reference

/-- The result of an operator on one value, if it is not a step by one. -/
def foldUnary (op : UnaryOp) (a : Value) : Except ArithmeticError Value :=
  match op with
  | .neg => alu .sub (.int 0) a
  | .not => .ok (.bool a.isZero)
  | _ => .ok a

/-- The registers that the code of expressions calculates with. -/
def Reg.isScratch : Reg → Bool
  | .r0 | .r1 | .r2 | .ix => true
  | _ => false

/-- At most the registers that expressions calculate with have changed. -/
def Registers.Keeps (rs rs' : Registers) : Prop := ∀ r, r.isScratch = false → rs'.get r = rs.get r

namespace Registers.Keeps

variable {rs rs' rs'' : Registers}

theorem refl : rs.Keeps rs := fun _ _ => rfl

theorem trans (h : rs.Keeps rs') (h' : rs'.Keeps rs'') : rs.Keeps rs'' :=
  fun r hr => (h' r hr).trans (h r hr)

theorem set (h : rs.Keeps rs') {x : Reg} (hx : x.isScratch = true) (v : Value) :
    rs.Keeps (rs'.set x v) := by
  intro r hr
  have hne : x ≠ r := by
    rintro rfl
    rw [hx] at hr
    cases hr
  rw [get_set_of_ne _ hne, h r hr]

end Registers.Keeps

namespace Target

variable {σ : Type} {T : Target σ} {frame : FrameLayout} {addr pc : Nat} {s : State} {w : σ}
  {a b v : Value}

/-- The machine computes a result from a state on, with the registers of expressions alone. -/
def Calculates (T : Target σ) (s : State) (w : σ) (pc : Nat) : Except Fault Value → Prop
  | .ok v => ∃ k registers, s.registers.Keeps registers ∧
    T.Runs k s w { s with pc := pc, registers := registers, stack := s.stack.push v } w
  | .error e => ∃ k pc registers, T.Runs k s w { s with pc := pc, registers := registers } w ∧
    T.Fails { s with pc := pc, registers := registers } w e

/-- The registers of expressions may change before a calculation starts. -/
theorem Calculates.after {k pc' : Nat} {registers : Registers} {r : Except Fault Value}
    (hrun : T.Runs k s w { s with pc := pc', registers := registers } w)
    (hkeeps : s.registers.Keeps registers)
    (h : T.Calculates { s with pc := pc', registers := registers } w pc r) :
    T.Calculates s w pc r := by
  cases r with
  | ok v =>
    obtain ⟨l, registers', hkeeps', h⟩ := h
    exact ⟨k + l, registers', hkeeps.trans hkeeps', hrun.trans h⟩
  | error e =>
    obtain ⟨l, pc'', registers', h, hfail⟩ := h
    exact ⟨k + l, pc'', registers', hrun.trans h, hfail⟩

theorem Calculates.fail {e : Fault} (h : T.Fails s w e) : T.Calculates s w pc (.error e) :=
  ⟨0, s.pc, s.registers, .refl, h⟩

/-- The content of a register as the result. -/
theorem calculates_push {x : Reg} (h : T.Stands frame addr (.push (.reg x))) (hpc : s.pc = addr) :
    T.Calculates s w (addr + 1) (.ok (s.registers.get x)) :=
  ⟨1, s.registers, .refl, runs_push h ⟨rfl, rfl, rfl⟩ hpc rfl⟩

/-- An operation on two registers, with the rest of a computation behind it. -/
theorem calculates_binary {op : OpCode} {x y : Reg} {rest : Value → Except ArithmeticError Value}
    (h : T.Stands frame addr (.binary op (.reg x) (.reg y))) (hop : isBinary op = true)
    (hx : x.isScratch = true) (hpc : s.pc = addr)
    (hrest : ∀ v, T.Calculates { s with pc := addr + 1, registers := s.registers.set x v } w pc
      (liftArithmetic (rest v))) :
    T.Calculates s w pc
      (liftArithmetic (alu op (s.registers.get x) (s.registers.get y) >>= rest)) := by
  cases hv : alu op (s.registers.get x) (s.registers.get y) with
  | ok v => exact .after (runs_binary h hop hpc hv) (.set .refl hx v) (hrest v)
  | error e => exact .fail (fails_binary h hop hpc hv)

/-! ## Truth values -/

/-- The code that tests `R0` for zero. -/
theorem calculates_zeroTest {zero : Bool} (h : Placed T.program frame addr (zeroTest zero))
    (hpc : s.pc = addr) :
    T.Calculates s w (addr + 4)
      (.ok (.bool (if (s.registers.get .r0).isZero then zero else !zero))) := by
  obtain ⟨h₀, h₁, h₂, h₃, -⟩ := h
  refine .after (runs_ldi h₀ hpc) (.set .refl rfl _) (.after (runs_skip h₁ rfl) .refl ?_)
  have hr₀ : (s.registers.set .r2 (.bool zero)).get .r0 = s.registers.get .r0 :=
    Registers.get_set_of_ne _ (by decide) _
  simp only [hr₀]
  cases (s.registers.get .r0).isZero with
  | true =>
    have hpush := @calculates_push σ T frame (addr + 1 + 1 + 1) { s with
      pc := addr + 1 + 1 + 1, registers := s.registers.set .r2 (.bool zero) } w .r2 h₃ rfl
    simpa using hpush
  | false =>
    refine .after (runs_ldi h₂ rfl) (.set .refl rfl _) ?_
    have hpush := @calculates_push σ T frame (addr + 1 + 1 + 1) { s with
      pc := addr + 1 + 1 + 1
      registers := (s.registers.set .r2 (.bool zero)).set .r2 (.bool !zero) } w .r2 h₃ rfl
    simpa using hpush

/-- The test of a value on top of the stack. -/
theorem runs_popTest {l : String} {target : Nat} {stack : Array Value}
    (h : Placed T.program frame addr (popTest l)) (hpc : s.pc = addr)
    (hl : T.labels.get? l = some target) (hs : s.stack = stack.push v) :
    T.Runs 2 s w
      { s with
        pc := if v.isZero then target else addr + 2
        stack := stack
        registers := s.registers.set .r0 v } w := by
  obtain ⟨h₀, h₁, -⟩ := h
  have hpop := @runs_pop σ T frame addr s w .r0 v h₀ hpc stack hs
  have hjump := @runs_rjmpIfZero σ T frame (addr + 1) target
    { s with pc := addr + 1, stack := stack, registers := s.registers.set .r0 v } w .r0 l h₁ rfl hl
  rw [Registers.get_set_self] at hjump
  exact hpop.trans hjump

/-- The code behind a logical operator pushes `true` when it is reached at its first label. -/
theorem calculates_yes {l : TruthLabels} (h : Placed T.program frame addr (truthCode l))
    (hpc : s.pc = addr) : T.Calculates s w (addr + 4) (.ok (.bool true)) := by
  obtain ⟨-, h₀, h₁, -, -, hdone, h₃, -⟩ := h
  refine .after (runs_ldi h₀ hpc) (.set .refl rfl _) (.after (runs_rjmp h₁ rfl hdone) .refl ?_)
  have hpush := @calculates_push σ T frame (addr + 1 + 1 + 1) { s with
    pc := addr + 1 + 1 + 1, registers := s.registers.set .r2 (.bool true) } w .r2 h₃ rfl
  simpa using hpush

/-- It pushes `false` when it is reached at its second label. -/
theorem calculates_no {l : TruthLabels} (h : Placed T.program frame addr (truthCode l))
    (hpc : s.pc = addr + 2) : T.Calculates s w (addr + 4) (.ok (.bool false)) := by
  obtain ⟨-, -, -, -, h₂, -, h₃, -⟩ := h
  refine .after (runs_ldi h₂ hpc) (.set .refl rfl _) ?_
  have hpush := @calculates_push σ T frame (addr + 1 + 1 + 1) { s with
    pc := addr + 1 + 1 + 1, registers := s.registers.set .r2 (.bool false) } w .r2 h₃ rfl
  simpa using hpush

/-- The code of a comparison without a shift. -/
theorem calculates_comparison {zero : Bool}
    (h : Placed T.program frame addr (comparisonCode [] zero)) (hpc : s.pc = addr)
    (ha : s.registers.get .r0 = a) (hb : s.registers.get .r1 = b) :
    T.Calculates s w (addr + 5) (liftArithmetic (alu .cp a b >>= fun sign =>
      .ok (.bool (if sign.isZero then zero else !zero)))) := by
  obtain ⟨h₀, htest⟩ := h
  rw [← ha, ← hb]
  refine calculates_binary h₀ rfl rfl hpc fun sign => ?_
  have htest := @calculates_zeroTest σ T frame (addr + 1)
    { s with pc := addr + 1, registers := s.registers.set .r0 sign } w zero htest rfl
  simpa [liftArithmetic] using htest

/-- The code of a comparison that shifts the sign by one. -/
theorem calculates_shifted {zero : Bool} {step : UnaryOp} {d : Int64}
    (hstep : stepOf? (stepCode step) = some d)
    (h : Placed T.program frame addr (comparisonCode [.unary (stepCode step) r0] zero))
    (hpc : s.pc = addr) (ha : s.registers.get .r0 = a) (hb : s.registers.get .r1 = b) :
    T.Calculates s w (addr + 6) (liftArithmetic ((ordering a b).map fun o =>
      .bool (if orderingSign o + d == 0 then zero else !zero))) := by
  obtain ⟨h₀, h₁, htest⟩ := h
  -- the sign is shifted by one, so that one of the three orders becomes zero
  cases ho : ordering a b with
  | error e =>
    refine Calculates.fail (fails_binary h₀ rfl hpc ?_)
    rw [ha, hb, alu, ho]
    rfl
  | ok o =>
    have hcp : alu .cp (s.registers.get .r0) (s.registers.get .r1) = .ok (.int (orderingSign o)) := by
      rw [ha, hb, alu, ho]
      rfl
    refine .after (runs_binary h₀ rfl hpc hcp) (.set .refl rfl _) ?_
    have hincrement : increment (stepCode step) (.int (orderingSign o)) =
        .ok (.int (orderingSign o + d)) := by
      simp [increment, hstep]
    have hshift : T.Runs 1 { s with
        pc := addr + 1, registers := s.registers.set .r0 (.int (orderingSign o)) } w { s with
        pc := addr + 1 + 1
        registers := (s.registers.set .r0 (.int (orderingSign o))).set .r0
          (.int (orderingSign o + d)) } w :=
      runs_step h₁ rfl (congrArg Except.ok (Registers.get_set_self _ _ _)) hincrement rfl
    refine .after hshift (.set .refl rfl _) ?_
    have htest := @calculates_zeroTest σ T frame (addr + 1 + 1) { s with
      pc := addr + 1 + 1
      registers := (s.registers.set .r0 (.int (orderingSign o))).set .r0
        (.int (orderingSign o + d)) } w zero htest rfl
    simpa [liftArithmetic, Except.map, Value.isZero] using htest

/-! ## Binary operators -/

theorem calculates_aluCode {op : OpCode} (hop : isBinary op = true)
    (h : Placed T.program frame addr (aluCode op)) (hpc : s.pc = addr)
    (ha : s.registers.get .r0 = a) (hb : s.registers.get .r1 = b) :
    T.Calculates s w (addr + 2) (liftArithmetic (alu op a b)) := by
  obtain ⟨h₀, h₁, -⟩ := h
  have hbind : alu op a b = alu op a b >>= Except.ok := (bind_pure _).symm
  rw [hbind, ← ha, ← hb]
  refine calculates_binary h₀ hop rfl hpc fun v => ?_
  have hpush := @calculates_push σ T frame (addr + 1)
    { s with pc := addr + 1, registers := s.registers.set .r0 v } w .r0 h₁ rfl
  simpa [liftArithmetic] using hpush

/-- The remainder is computed from the quotient. -/
theorem calculates_remainder (h : Placed T.program frame addr remainderCode) (hpc : s.pc = addr)
    (ha : s.registers.get .r0 = a) (hb : s.registers.get .r1 = b) :
    T.Calculates s w (addr + 5) (liftArithmetic (fold .mod a b)) := by
  obtain ⟨h₀, h₁, h₂, h₃, h₄, -⟩ := h
  -- the dividend is kept in `R2`, since the division overwrites it
  have hmov : T.Runs 1 s w { s with pc := addr + 1, registers := s.registers.set .r2 a } w :=
    runs_mov h₀ ⟨rfl, rfl, rfl⟩ hpc (congrArg Except.ok ha) rfl
  have hr₀ : (s.registers.set .r2 a).get .r0 = a :=
    (Registers.get_set_of_ne _ (by decide) _).trans ha
  have hr₁ : (s.registers.set .r2 a).get .r1 = b :=
    (Registers.get_set_of_ne _ (by decide) _).trans hb
  refine .after hmov (.set .refl rfl _) ?_
  have hfold : fold .mod a b = alu .div ((s.registers.set .r2 a).get .r0)
      ((s.registers.set .r2 a).get .r1) >>= fun q => alu .mul q b >>= alu .sub a := by
    rw [hr₀, hr₁]
    rfl
  rw [hfold]
  refine calculates_binary h₁ rfl rfl rfl fun q => ?_
  have hq₁ : ((s.registers.set .r2 a).set .r0 q).get .r1 = b :=
    (Registers.get_set_of_ne _ (by decide) _).trans hr₁
  have hmul : alu .mul q b = alu .mul (((s.registers.set .r2 a).set .r0 q).get .r0)
      (((s.registers.set .r2 a).set .r0 q).get .r1) := by
    rw [Registers.get_set_self, hq₁]
  rw [hmul]
  refine calculates_binary h₂ rfl rfl rfl fun p => ?_
  have hp₂ : (((s.registers.set .r2 a).set .r0 q).set .r0 p).get .r2 = a := by
    rw [Registers.get_set_of_ne _ (by decide), Registers.get_set_of_ne _ (by decide),
      Registers.get_set_self]
  have hsub : alu .sub a p = alu .sub ((((s.registers.set .r2 a).set .r0 q).set .r0 p).get .r2)
      ((((s.registers.set .r2 a).set .r0 q).set .r0 p).get .r0) >>= Except.ok := by
    rw [Registers.get_set_self, hp₂]
    exact (bind_pure _).symm
  rw [hsub]
  refine calculates_binary h₃ rfl rfl rfl fun v => ?_
  have hpush := @calculates_push σ T frame (addr + 1 + 1 + 1 + 1) { s with
    pc := addr + 1 + 1 + 1 + 1
    registers := ((((s.registers.set .r2 a).set .r0 q).set .r0 p).set .r2 v) } w .r2 h₄ rfl
  simpa [liftArithmetic] using hpush

/-- **The code of an operator computes its result.** -/
theorem calculates_applyCode {op : BinaryOp} (hop : isLogical op = false)
    (h : Placed T.program frame addr (applyCode op)) (hpc : s.pc = addr)
    (ha : s.registers.get .r0 = a) (hb : s.registers.get .r1 = b) :
    T.Calculates s w (addr + (applyCode op).size) (liftArithmetic (fold op a b)) := by
  -- a comparison goes by the sign of the order, of which there are three
  have hsign (op : BinaryOp) (zero : Bool) (d : Int64)
      (hcmp : ∀ o, comparison op (orderingSign o) =
        if orderingSign o + d == 0 then zero else !zero) :
      (alu .cp a b).map (fun sign => Value.bool (comparison op (sign.toInt?.getD 0))) =
        (ordering a b).map fun o =>
          Value.bool (if orderingSign o + d == 0 then zero else !zero) := by
    rw [alu]
    cases ordering a b with
    | error e => rfl
    | ok o => exact congrArg (fun x => Except.ok (Value.bool x)) (hcmp o)
  have hplain (op : BinaryOp) (zero : Bool)
      (hcmp : ∀ o, comparison op (orderingSign o) =
        if (Value.int (orderingSign o)).isZero then zero else !zero) :
      (alu .cp a b).map (fun sign => Value.bool (comparison op (sign.toInt?.getD 0))) =
        alu .cp a b >>= fun sign => .ok (.bool (if sign.isZero then zero else !zero)) := by
    rw [alu]
    cases ordering a b with
    | error e => rfl
    | ok o => exact congrArg (fun x => Except.ok (Value.bool x)) (hcmp o)
  cases op with
  | add | sub | mul | div | bitAnd | bitOr | bitXor => exact calculates_aluCode rfl h hpc ha hb
  | mod => exact calculates_remainder h hpc ha hb
  | eq =>
    rw [fold, hplain .eq true (by rintro (_ | _ | _) <;> rfl)]
    exact calculates_comparison h hpc ha hb
  | ne =>
    rw [fold, hplain .ne false (by rintro (_ | _ | _) <;> rfl)]
    exact calculates_comparison h hpc ha hb
  | lt =>
    rw [fold, hsign .lt true 1 (by rintro (_ | _ | _) <;> decide)]
    exact @calculates_shifted σ T frame addr s w a b true .inc 1 rfl h hpc ha hb
  | ge =>
    rw [fold, hsign .ge false 1 (by rintro (_ | _ | _) <;> decide)]
    exact @calculates_shifted σ T frame addr s w a b false .inc 1 rfl h hpc ha hb
  | gt =>
    rw [fold, hsign .gt true (-1) (by rintro (_ | _ | _) <;> decide)]
    exact @calculates_shifted σ T frame addr s w a b true .dec (-1) rfl h hpc ha hb
  | le =>
    rw [fold, hsign .le false (-1) (by rintro (_ | _ | _) <;> decide)]
    exact @calculates_shifted σ T frame addr s w a b false .dec (-1) rfl h hpc ha hb
  | and | or => cases hop

/-- The code of a negation, with the operand in `R1`. -/
theorem calculates_negation (h : Placed T.program frame addr
      (Code.ofInstrs [.ldi .r0 (.int 0), .binary .sub r0 r1, .push r0])) (hpc : s.pc = addr)
    (ha : s.registers.get .r1 = a) :
    T.Calculates s w (addr + 3) (liftArithmetic (alu .sub (.int 0) a)) := by
  obtain ⟨h₀, hsub⟩ := h
  refine .after (runs_ldi h₀ hpc) (.set .refl rfl _) ?_
  refine calculates_aluCode rfl hsub rfl (Registers.get_set_self _ _ _) ?_
  exact (Registers.get_set_of_ne _ (by decide) _).trans ha

end Target

/-! ## Types of results -/

section Types

variable {a b v : Value} {ty : Ty}

variable {op : OpCode}

theorem ty_of_numeric {ints : Int64 → Int64 → Except ArithmeticError Value}
    {doubles : Float → Float → Float} (hints : ∀ x y v, ints x y = .ok v → v.ty = .int)
    (h : numeric op ints doubles a b = .ok v) : v.ty = arithmeticType a.ty b.ty := by
  unfold numeric at h
  cases a <;> cases b <;> simp only [promote?, Value.toInt?, Value.toDouble?] at h <;>
    first
    | exact hints _ _ _ h
    | cases h <;> rfl

theorem ty_of_bitwise {truths : Bool → Bool → Bool} {ints : Int64 → Int64 → Int64}
    (h : bitwise op truths ints a b = .ok v) :
    v.ty = if a.ty = .boolean ∧ b.ty = .boolean then .boolean else .int := by
  unfold bitwise at h
  cases a <;> cases b <;> simp only [Value.toInt?] at h <;> cases h <;> rfl

/-- The results of integer operations are integers. -/
theorem ty_of_intDivision {x y : Int64}
    (h : (if y = 0 then .error .divisionByZero else .ok (.int (x / y)) :
      Except ArithmeticError Value) = .ok v) : v.ty = .int := by
  split at h
  · cases h
  · cases h
    rfl

theorem ty_of_alu (hop : op = .sub ∨ op = .mul ∨ op = .div) (h : alu op a b = .ok v) :
    v.ty = arithmeticType a.ty b.ty := by
  rcases hop with rfl | rfl | rfl
  · exact ty_of_numeric (fun _ _ _ h => by cases h; rfl) h
  · exact ty_of_numeric (fun _ _ _ h => by cases h; rfl) h
  · exact ty_of_numeric (fun _ _ _ h => ty_of_intDivision h) h

theorem ty_of_add (hty : binaryType .add a.ty b.ty = .ok ty) (h : alu .add a b = .ok v) :
    v.ty = ty := by
  have htext : (a.isText || b.isText) = joinsTexts a.ty b.ty := by
    cases a <;> cases b <;> rfl
  rw [alu, htext] at h
  rw [binaryType] at hty
  split at h
  next hjoin =>
    rw [if_pos hjoin] at hty
    cases hty
    cases h
    rfl
  next hjoin =>
    rw [if_neg hjoin] at hty
    obtain ⟨_, -, rfl⟩ := map_eq_ok.mp hty
    exact ty_of_numeric (fun _ _ _ h => by cases h; rfl) h

theorem checkOperands_eq_ok {op : BinaryOp} {accept : Ty → Bool} {l r : Ty} {u : Unit}
    (h : checkOperands op accept l r = .ok u) : accept l = true ∧ accept r = true := by
  unfold checkOperands at h
  split at h
  next hl =>
    split at h
    next hr => exact ⟨hl, hr⟩
    · cases h
  · cases h

theorem arithmeticType_of_isIntegral {l r : Ty} (hl : l.isIntegral = true)
    (hr : r.isIntegral = true) : arithmeticType l r = .int := by
  cases l <;> cases hl <;> cases r <;> cases hr <;> rfl

/-- **The result of an operator has the type that the compiler gives to it.** -/
theorem ty_of_fold {op : BinaryOp} (hty : binaryType op a.ty b.ty = .ok ty)
    (h : fold op a b = .ok v) : v.ty = ty := by
  have hcompare {op : BinaryOp} (hv : (alu .cp a b).map
      (fun sign => Value.bool (comparison op (sign.toInt?.getD 0))) = .ok v)
      (hty : (if a.ty = .string ∧ b.ty = .string then .ok .boolean
        else (checkOperands op Ty.isScalar a.ty b.ty).map fun _ => .boolean) = .ok ty) :
      v.ty = ty := by
    obtain ⟨sign, -, rfl⟩ := map_eq_ok.mp hv
    split at hty
    · cases hty
      rfl
    · obtain ⟨_, -, rfl⟩ := map_eq_ok.mp hty
      rfl
  cases op with
  | add => exact ty_of_add hty h
  | sub | mul | div =>
    obtain ⟨_, -, rfl⟩ := map_eq_ok.mp hty
    simp only [fold] at h
    exact ty_of_alu (by simp) h
  | mod =>
    obtain ⟨_, hcheck, rfl⟩ := map_eq_ok.mp hty
    obtain ⟨ha, hb⟩ := checkOperands_eq_ok hcheck
    simp only [fold, bind_eq_ok] at h
    obtain ⟨q, hq, p, hp, hv⟩ := h
    -- quotient and product are integers, because both operands are integral
    have hqty : q.ty = .int :=
      (ty_of_alu (by simp) hq).trans (arithmeticType_of_isIntegral ha hb)
    have hpty : p.ty = .int := by
      rw [ty_of_alu (by simp) hp, hqty]
      exact arithmeticType_of_isIntegral rfl hb
    rw [ty_of_alu (by simp) hv, hpty]
    exact arithmeticType_of_isIntegral ha rfl
  | bitAnd | bitOr | bitXor =>
    obtain ⟨_, -, rfl⟩ := map_eq_ok.mp hty
    exact ty_of_bitwise h
  | eq | ne | lt | le | gt | ge => exact hcompare h hty
  | and | or =>
    obtain ⟨_, -, rfl⟩ := map_eq_ok.mp hty
    cases h
    rfl

/-- The result of a unary operator has the type that the compiler gives to it. -/
theorem ty_of_foldUnary {op : UnaryOp} {x : Value} (hty : unaryType op x.ty = .ok ty)
    (h : foldUnary op x = .ok v) : v.ty = ty := by
  cases op with
  | neg =>
    have hv : v.ty = arithmeticType .int x.ty := ty_of_alu (.inl rfl) h
    rw [hv]
    cases x <;> cases hty <;> rfl
  | pos | inc | dec =>
    cases h
    cases v <;> cases hty <;> rfl
  | not =>
    cases h
    cases x <;> cases hty <;> rfl

/-- A number can be changed by one and stays a number. -/
theorem increment_of_number (hop : op = .inc ∨ op = .dec) (hty : a.ty = .int ∨ a.ty = .double) :
    ∃ v, increment op a = .ok v ∧ v.ty = a.ty := by
  rcases hop with rfl | rfl
  all_goals
    cases a with
    | int n => simp [increment, stepOf?, Value.ty]
    | double x => simp [increment, stepOf?, Value.ty]
    | bool b => simp [Value.ty] at hty
    | str s => simp [Value.ty] at hty

end Types

end Stepwise
