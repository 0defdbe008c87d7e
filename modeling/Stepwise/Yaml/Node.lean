import Stepwise.Value

/-!
# Data trees

The data that a YAML file holds: scalars, sequences, mappings with text keys in their order, and
tagged data.

## Main definitions

* `Node`: a data tree
* `Node.fields?`, `required`, `optional`, `withDefault`: reading a record from a mapping
-/

namespace Stepwise.Yaml

/-- A data tree. -/
inductive Node where
  | null
  | bool (b : Bool)
  | int (n : Int)
  | float (x : Float)
  | str (s : String)
  | seq (items : List Node)
  | map (fields : List (String × Node))
  | tagged (tag : String) (node : Node)
  deriving Inhabited

/-- The fields of a mapping. Nothing at all counts as the mapping without fields. -/
abbrev Fields := List (String × Node)

namespace Node

mutual

/-- The height of a tree. -/
def depth : Node → Nat
  | .seq items => depthItems items + 1
  | .map fields => depthFields fields + 1
  | .tagged _ node => node.depth + 1
  | _ => 1

/-- The greatest height in a sequence. -/
def depthItems : List Node → Nat
  | [] => 0
  | node :: rest => max node.depth (depthItems rest)

/-- The greatest height in a mapping. -/
def depthFields : List (String × Node) → Nat
  | [] => 0
  | (_, node) :: rest => max node.depth (depthFields rest)

end

/-- The fields of a record. -/
def fields? : Node → Option Fields
  | .map fields => some fields
  | .null => some []
  | _ => none

/-- The items of a list. Nothing at all counts as the empty list. -/
def items? : Node → Option (List Node)
  | .seq items => some items
  | .null => some []
  | _ => none

/-- A list of data of one kind. -/
def list? {α : Type} (f : Node → Option α) (node : Node) : Option (List α) := do
  (← node.items?).mapM f

/-- A text. -/
def text? : Node → Option String
  | .str s => some s
  | _ => none

/-- A truth value. -/
def bool? : Node → Option Bool
  | .bool b => some b
  | _ => none

/-- A natural number of 64 bits. -/
def nat? : Node → Option Nat
  | .int n => if 0 ≤ n ∧ n ≤ Decimal.maxNatWord then some n.toNat else none
  | _ => none

/-- An integer of 64 bits. -/
def int? : Node → Option Int
  | .int n => if Decimal.fitsWord n then some n else none
  | _ => none

/-- A value of the language. A natural number beyond the integers is a double. -/
def value? : Node → Option Value
  | .int n =>
    if Decimal.fitsWord n then some (.int (Int64.ofInt n))
    else if 0 ≤ n ∧ n ≤ Decimal.maxNatWord then some (.double (Float.ofInt n))
    else none
  | .float x => some (.double x)
  | .bool b => some (.bool b)
  | .str s => some (.str s)
  | _ => none

/-- The data of a value. -/
def ofValue : Value → Node
  | .int n => .int n.toInt
  | .double x => .float x
  | .bool b => .bool b
  | .str s => .str s

/-- The name of a type. -/
def ty? (node : Node) : Option Ty := node.text?.bind Ty.ofName?

/-- The data of something optional. -/
def ofOption {α : Type} (f : α → Node) : Option α → Node
  | some a => f a
  | none => .null

/-- Optional data. -/
def option? {α : Type} (f : Node → Option α) : Node → Option (Option α)
  | .null => some none
  | node => (f node).map some

end Node

/-- A field that a record must have. -/
def required {α : Type} (fields : Fields) (key : String) (f : Node → Option α) : Option α :=
  (fields.lookup key).bind f

/-- A field that may be absent or empty. -/
def optional {α : Type} (fields : Fields) (key : String) (f : Node → Option α) :
    Option (Option α) :=
  match fields.lookup key with
  | none => some none
  | some node => node.option? f

/-- A field that may be absent but not empty. -/
def withDefault {α : Type} (fields : Fields) (key : String) (default : α)
    (f : Node → Option α) : Option α :=
  match fields.lookup key with
  | none => some default
  | some node => f node

/-- A field that is written only if there is something to write. -/
def present {α : Type} (key : String) (f : α → Node) : Option α → Fields
  | some a => [(key, f a)]
  | none => []

end Stepwise.Yaml
