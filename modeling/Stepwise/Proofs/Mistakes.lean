import Mathlib
import Stepwise.Compiler
import Stepwise.Proofs.StmtCases

/-!
# Mistakes of the program

Everything before code is fitted together fails only over a mistake of the program. A failed
conversion is no mistake of a program: a constant is converted only when its type may be assigned to
the slot, and then the conversion succeeds.

## Main definitions

* `OnlyMistakes`: a computation that fails with no internal error and over no conversion
* `Checks`: a check that fails over no conversion

## Main results

* `checks_resolve`, `checks_binaryType`, `checks_unaryType`: names and types are checked without a
  conversion
-/

namespace Stepwise

variable {α β : Type}

/-- The mistake is a conversion that fails. -/
def Mistake.isCoercion : Mistake → Bool
  | .coercion _ => true
  | _ => false

/-- The error is a mistake of the program. -/
def CompileError.IsMistake (e : CompileError) : Prop :=
  ∃ m loc, e = .mistake m loc ∧ m.isCoercion = false

/-- A computation that fails only over a mistake of the program. -/
def OnlyMistakes (x : Except CompileError α) : Prop := ∀ e, x = .error e → e.IsMistake

/-- A check that fails over no conversion. -/
def Checks (x : Except Mistake α) : Prop := ∀ m, x = .error m → m.isCoercion = false

theorem onlyMistakes_ok (a : α) : OnlyMistakes (.ok a) := fun _ h => by cases h

theorem onlyMistakes_at {m : Mistake} {loc : Location} (hm : m.isCoercion = false) :
    OnlyMistakes (m.at loc : Except CompileError α) := by
  rintro e ⟨⟩
  exact ⟨m, loc, rfl, hm⟩

theorem OnlyMistakes.bind_of_ok {x : Except CompileError α} {f : α → Except CompileError β}
    (hx : OnlyMistakes x) (hf : ∀ a, x = .ok a → OnlyMistakes (f a)) : OnlyMistakes (x >>= f) := by
  intro e h
  rcases bind_eq_error.mp h with h | ⟨a, ha, h⟩
  · exact hx e h
  · exact hf a ha e h

theorem OnlyMistakes.bind {x : Except CompileError α} {f : α → Except CompileError β}
    (hx : OnlyMistakes x) (hf : ∀ a, OnlyMistakes (f a)) : OnlyMistakes (x >>= f) :=
  hx.bind_of_ok fun a _ => hf a

/-! ## Names and types -/

theorem checks_resolve (scope : Scope) (name : String) : Checks (scope.resolve name) := by
  unfold Scope.resolve
  split
  · rintro _ ⟨⟩
  · rintro _ ⟨⟩
    rfl

theorem checks_binaryType (op : BinaryOp) (left right : Ty) :
    Checks (binaryType op left right) := by
  have hoperands (accept : Ty → Bool) {f : Unit → Ty} :
      Checks ((checkOperands op accept left right).map f) := by
    unfold checkOperands
    split
    · split
      · rintro _ ⟨⟩
      · rintro _ ⟨⟩
        rfl
    · rintro _ ⟨⟩
      rfl
  cases op with
  | add | eq | ne | lt | le | gt | ge =>
    unfold binaryType
    dsimp only
    split
    · rintro _ ⟨⟩
    · exact hoperands _
  | _ => exact hoperands _

theorem checks_unaryType (op : UnaryOp) (ty : Ty) : Checks (unaryType op ty) := by
  intro m h
  cases op <;> cases ty <;> cases h <;> rfl

end Stepwise
