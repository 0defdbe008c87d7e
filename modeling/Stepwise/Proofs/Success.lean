import Mathlib
import Stepwise.Lowering.Function
import Stepwise.Machine.Memory

/-!
# Computations that succeed

A computation in steps succeeds if every step does. These rules take a success apart, for plain
results and for results with a state.
-/

namespace Stepwise

variable {ε α β σ : Type}

theorem bind_eq_ok {x : Except ε α} {f : α → Except ε β} {b : β} :
    (x >>= f) = .ok b ↔ ∃ a, x = .ok a ∧ f a = .ok b := by
  cases x <;> simp [bind, Except.bind]

theorem bind_eq_error {ε α β : Type} {x : Except ε α} {g : α → Except ε β} {err : ε} :
    (x >>= g) = .error err ↔ x = .error err ∨ ∃ a, x = .ok a ∧ g a = .error err := by
  cases x <;> simp [bind, Except.bind]

theorem map_eq_ok {x : Except ε α} {f : α → β} {b : β} :
    (f <$> x) = .ok b ↔ ∃ a, x = .ok a ∧ f a = b := by
  cases x <;> simp [Functor.map, Except.map]

theorem pure_eq_ok {a b : α} : (pure a : Except ε α) = .ok b ↔ a = b := by
  simp [pure, Except.pure]

theorem locate_eq_ok {loc : Location} {x : Except Mistake α} {a : α} :
    Mistake.locate loc x = .ok a ↔ x = .ok a := by
  cases x <;> simp [Mistake.locate]

theorem at_ne_ok {m : Mistake} {loc : Location} {a : α} :
    (m.at loc : Except CompileError α) = .ok a ↔ False := by
  simp [Mistake.at]

theorem liftInternal_eq_ok {x : Except InternalError α} {a : α} :
    liftInternal x = .ok a ↔ x = .ok a := by
  cases x <;> simp [liftInternal]

theorem liftArithmetic_eq_ok {x : Except ArithmeticError α} {a : α} :
    liftArithmetic x = .ok a ↔ x = .ok a := by
  cases x <;> simp [liftArithmetic]

theorem liftConversion_eq_ok {x : Except ConversionError α} {a : α} :
    liftConversion x = .ok a ↔ x = .ok a := by
  cases x <;> simp [liftConversion]

/-! ## With a state -/

theorem stateT_bind_eq_ok {x : StateT σ (Except ε) α} {f : α → StateT σ (Except ε) β} {s : σ}
    {r : β × σ} :
    (x >>= f) s = .ok r ↔ ∃ a s', x s = .ok (a, s') ∧ f a s' = .ok r := by
  simp only [bind, StateT.bind, Except.bind]
  rcases x s with e | ⟨a, s'⟩ <;> simp

theorem stateT_map_eq_ok {x : StateT σ (Except ε) α} {f : α → β} {s : σ} {r : β × σ} :
    (f <$> x) s = .ok r ↔ ∃ a s', x s = .ok (a, s') ∧ (f a, s') = r := by
  simp only [Functor.map, StateT.map, bind, Except.bind, pure, Except.pure]
  rcases x s with e | ⟨a, s'⟩ <;> simp

theorem stateT_pure_eq_ok {a : α} {s : σ} {r : α × σ} :
    (pure a : StateT σ (Except ε) α) s = .ok r ↔ (a, s) = r := by
  simp [pure, StateT.pure, Except.pure]

theorem stateT_lift_eq_ok {x : Except ε α} {s : σ} {r : α × σ} :
    (liftM x : StateT σ (Except ε) α) s = .ok r ↔ ∃ a, x = .ok a ∧ (a, s) = r := by
  cases x <;> simp [liftM, monadLift, MonadLift.monadLift, StateT.lift, bind, Except.bind, pure,
    Except.pure]

end Stepwise
