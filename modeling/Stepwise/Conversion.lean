import Stepwise.Decimal.Reading
import Stepwise.Text.Blank
import Stepwise.Value

/-!
# Conversion between types

Which types may be assigned to which, and what a value becomes in a slot of another type. A store
into memory always converts to the type of the slot.

## Main definitions

* `assignable`: assignment from a type to a type
* `coerce`: the value that a slot of a given type stores
-/

namespace Stepwise

/-- Why a value cannot be converted. -/
inductive ConversionError where
  /-- The text is not a decimal number. -/
  | notNumeric (text : String)
  /-- The target type has no values. -/
  | void
  deriving DecidableEq, Repr

/-- The wording of a conversion error. -/
def ConversionError.message : ConversionError → String
  | .notNumeric s => "Cannot convert `" ++ s ++ "` to a number"
  | .void => "Cannot store a value in void"

/-- Whether an expression of type `source` may be assigned to a slot of type `target`. Numbers go to
numbers and truth values, truth values go everywhere, texts only to texts. -/
def assignable (target source : Ty) : Bool :=
  match source with
  | .int | .double => target.isScalar
  | .boolean => target != .void
  | .string => target == .string
  | .void => false

/-- Whether a value may be assigned to a slot of type `target`. -/
def accepts (target : Ty) (v : Value) : Bool := assignable target v.ty

/-- The number that a value stands for. A text is read as a decimal, without the blanks at its
ends. -/
def numberOf (v : Value) : Except ConversionError Float :=
  match v with
  | .int n => .ok (Decimal.ofWord n)
  | .double x => .ok x
  | .bool b => .ok (if b then 1.0 else 0.0)
  | .str s =>
    match Decimal.readNumber? (Text.trim s.toList) with
    | some x => .ok x
    | none => .error (.notNumeric s)

/-- The value that a slot of type `target` stores for `v`. An integer is the number without its
fraction, a truth value tells whether the number differs from zero, a text is the printed value. -/
def coerce (target : Ty) (v : Value) : Except ConversionError Value :=
  match target with
  | .int =>
    match v with
    | .int n => .ok (.int n)
    | .bool b => .ok (.int (Value.ofTruth b))
    | v => (numberOf v).map fun x => .int (Decimal.truncate x)
  | .double => (numberOf v).map .double
  | .boolean =>
    match v with
    | .bool b => .ok (.bool b)
    | v => (numberOf v).map fun x => .bool (x != 0.0)
  | .string => .ok (.str v.text)
  | .void => .error .void

/-- A value made from a number is made from some number. -/
theorem exists_of_map_eq_ok {f : Float → Value} {r : Except ConversionError Float} {w : Value}
    (h : r.map f = .ok w) : ∃ x, w = f x := by
  cases r with
  | error e => cases h
  | ok x => cases h; exact ⟨x, rfl⟩

/-- A stored value has the type of its slot. -/
theorem ty_of_coerce {target : Ty} {v w : Value} (h : coerce target v = .ok w) : w.ty = target := by
  cases target with
  | int =>
    cases v with
    | int n => cases h; rfl
    | bool b => cases h; rfl
    | double x => cases h; rfl
    | str s => obtain ⟨x, rfl⟩ := exists_of_map_eq_ok h; rfl
  | double => obtain ⟨x, rfl⟩ := exists_of_map_eq_ok h; rfl
  | boolean =>
    cases v with
    | bool b => cases h; rfl
    | int n => cases h; rfl
    | double x => cases h; rfl
    | str s => obtain ⟨x, rfl⟩ := exists_of_map_eq_ok h; rfl
  | string => cases h; rfl
  | void => cases h

/-- A conversion to the type that a value has changes nothing. -/
theorem coerce_self (v : Value) : coerce v.ty v = .ok v := by
  cases v <;> rfl

/-- A value of a type that may be assigned to another one can be converted to it. -/
theorem exists_coerce {ty : Ty} {v : Value} (h : assignable ty v.ty = true) :
    ∃ w, coerce ty v = .ok w := by
  cases v <;> cases ty <;>
    simp [assignable, Value.ty, Ty.isScalar, coerce, numberOf, Except.map] at h ⊢

end Stepwise
