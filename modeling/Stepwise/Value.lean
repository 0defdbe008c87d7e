import Stepwise.Decimal.Layout
import Stepwise.Text.Quoted

/-!
# Types and values

The scalar types of the language and the values that registers, stack slots and the global region
hold. A value knows its own type; `void` is the type of no value.

## Main definitions

* `Ty`, `Value`: types and values
* `Value.ty`, `Value.defaultOf`: the type of a value and the first content of a fresh slot
* `Value.isZero`: what a conditional jump tests
* `Value.text`, `Value.inspect`: a value as programs print it and as diagnostics show it
-/

namespace Stepwise

/-- The types of the language. `void` occurs only as the result type of a function. -/
inductive Ty where
  | int
  | double
  | boolean
  | string
  | void
  deriving DecidableEq, Repr, Inhabited

namespace Ty

/-- The name of a type. -/
def name : Ty → String
  | .int => "int"
  | .double => "double"
  | .boolean => "boolean"
  | .string => "string"
  | .void => "void"

/-- All types. -/
def all : List Ty := [.int, .double, .boolean, .string, .void]

/-- The type with a given name. -/
def ofName? (s : String) : Option Ty := all.find? (·.name == s)

/-- Types that can index an array and be operands of `%`, `&`, `|` and `^`. -/
def isIntegral : Ty → Bool
  | .int | .boolean => true
  | _ => false

/-- Types of numbers and truth values. -/
def isScalar : Ty → Bool
  | .int | .double | .boolean => true
  | _ => false

theorem ofName?_name (t : Ty) : ofName? t.name = some t := by
  cases t <;> decide

end Ty

/-- A value of one of the four types that have values. -/
inductive Value where
  | int (n : Int64)
  | double (x : Float)
  | bool (b : Bool)
  | str (s : String)
  deriving DecidableEq, Repr

namespace Value

instance : Inhabited Value := ⟨.int 0⟩

/-- The type of a value. -/
def ty : Value → Ty
  | .int _ => .int
  | .double _ => .double
  | .bool _ => .boolean
  | .str _ => .string

/-- The first content of a slot of a given type. -/
def defaultOf : Ty → Value
  | .int | .void => .int 0
  | .double => .double 0.0
  | .boolean => .bool false
  | .string => .str ""

/-- Whether a value counts as false: zero of either sign, `false` or the empty text. -/
def isZero : Value → Bool
  | .int n => n == 0
  | .double x => x == 0.0
  | .bool b => !b
  | .str s => s.isEmpty

/-- A truth value as a number. -/
def ofTruth (b : Bool) : Int64 := if b then 1 else 0

/-- The integer that an integer or a truth value stands for. -/
def toInt? : Value → Option Int64
  | .int n => some n
  | .bool b => some (ofTruth b)
  | .double _ | .str _ => none

/-- The double that a number or a truth value stands for. -/
def toDouble? : Value → Option Float
  | .int n => some (Decimal.ofWord n)
  | .double x => some x
  | .bool b => some (if b then 1.0 else 0.0)
  | .str _ => none

/-- Whether a value is a text. -/
def isText : Value → Bool
  | .str _ => true
  | _ => false

/-- The name of a truth value. -/
def truthName (b : Bool) : String := if b then "true" else "false"

/-- A value as programs print it. -/
def text : Value → String
  | .int n => toString n.toInt
  | .double x => Decimal.plain.write x
  | .bool b => truthName b
  | .str s => s

/-- A value as diagnostics show it, with its kind. -/
def inspect : Value → String
  | .int n => "Int(" ++ toString n.toInt ++ ")"
  | .double x => "Double(" ++ Decimal.diagnostic.write x ++ ")"
  | .bool b => "Bool(" ++ truthName b ++ ")"
  | .str s => "Str(" ++ Text.quote s ++ ")"

theorem ty_ne_void (v : Value) : v.ty ≠ .void := by
  cases v <;> simp [ty]

theorem ty_defaultOf {t : Ty} (h : t ≠ .void) : (defaultOf t).ty = t := by
  cases t <;> simp_all [defaultOf, ty]

theorem exists_toInt? {v : Value} (h : v.ty.isIntegral = true) : ∃ n, v.toInt? = some n := by
  cases v with
  | int n => exact ⟨n, rfl⟩
  | bool b => exact ⟨_, rfl⟩
  | double x => cases h
  | str s => cases h

end Value

end Stepwise
