import Stepwise.Diagnostic
import Stepwise.Table

/-!
# Scopes

What names mean at a place of the program. Scopes form a chain: a name is looked up in the innermost
scope first and then outward, and an inner declaration hides an outer one.

## Main definitions

* `Slot`, `Variable`, `Signature`, `Symbol`: what a name can mean
* `Scope`: a chain of scopes
* `Scope.declare`, `Scope.lookup?`, `Scope.resolve`: declaration and look-up
-/

namespace Stepwise

/-- Where a variable is stored. -/
inductive Slot where
  /-- At an offset in the global region. -/
  | global (offset : Nat)
  /-- Under a key of the frame of its function. -/
  | frame (key : String)
  deriving DecidableEq, Repr

/-- The operand for a slot, with an index register for an array element. -/
def Slot.operand (s : Slot) (index : Option Reg) : Operand :=
  match s with
  | .global offset => .ptr ⟨.global, offset, index⟩
  | .frame key => .var key index

/-- A variable. A global one has a value that is known at compile time, unless it is an array. -/
structure Variable where
  ty : Ty
  isArray : Bool
  length : Option Nat
  value : Option Value
  slot : Slot
  deriving DecidableEq, Repr

/-- How a function is called. A host function may take further arguments of any type. -/
structure Signature where
  params : List Ty
  ret : Ty
  external : Bool
  variadic : Bool
  deriving DecidableEq, Repr

/-- What a name means. -/
inductive Symbol where
  | variable (v : Variable)
  | function (f : Signature)
  deriving DecidableEq, Repr

/-- A chain of scopes, the innermost first. -/
structure Scope where
  inner : Table Symbol
  outer : List (Table Symbol)

namespace Scope

/-- The outermost scope, without names. -/
def root : Scope := ⟨.empty, []⟩

/-- A new scope inside another one. -/
def child (s : Scope) : Scope := ⟨.empty, s.inner :: s.outer⟩

/-- The scope around another one. -/
def parent? (s : Scope) : Option Scope :=
  match s.outer with
  | [] => none
  | t :: rest => some ⟨t, rest⟩

/-- The meaning of a name declared in the innermost scope. -/
def get? (s : Scope) (name : String) : Option Symbol := s.inner.get? name

/-- The meaning of a name. -/
def lookup? (s : Scope) (name : String) : Option Symbol :=
  (s.inner :: s.outer).findSome? (·.get? name)

/-- The meaning of a name that must have one. -/
def resolve (s : Scope) (name : String) : Except Mistake Symbol :=
  match s.lookup? name with
  | some symbol => .ok symbol
  | none => .error (.notDeclared name)

/-- Declares a name in the innermost scope, where it must be new. -/
def declare (s : Scope) (name : String) (symbol : Symbol) : Except Mistake Scope :=
  if s.inner.contains name then .error (.alreadyDeclared name)
  else .ok { s with inner := s.inner.insert name symbol }

end Scope

end Stepwise
