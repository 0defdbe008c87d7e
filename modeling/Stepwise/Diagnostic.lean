import Stepwise.Arithmetic
import Stepwise.Conversion
import Stepwise.Instruction.Basic

/-!
# Diagnostics of the compiler

A mistake is something in the program that the compiler refuses, and has a place in its text. An
internal error means that generated code does not fit together.

## Main definitions

* `Mistake`, `InternalError`, `CompileError`: why a program is not compiled
* `CompileError.message`, `CompileError.full`: the wording, without and with the place
-/

namespace Stepwise

/-- What the compiler refuses in a program. -/
inductive Mistake where
  | alreadyDeclared (name : String)
  | notDeclared (name : String)
  | typeMismatch (expected found : Ty)
  | coercion (cause : ConversionError)
  | illegalTopLevel
  | illegalStatement (what : String)
  | illegalAssignmentTarget
  | callInGlobalInitializer
  | nonConstantInitializer
  | constEval (cause : ArithmeticError)
  | argumentCount (name : String) (expected found : Nat)
  | notAFunction (name : String)
  | notAVariable (name : String)
  | notCallable
  | voidValue (name : String)
  | voidVariable
  | invalidOperand (op : String) (ty : Ty)
  | notAnArray (name : String)
  | arrayAsValue (name : String)
  | arrayLength (name : String)
  | arrayInitializer (name : String)
  | arrayParameter (name : String)
  | parameterInitializer (name : String)
  | mainParameters
  | breakOutsideLoop
  | continueOutsideLoop
  | missingReturnValue (name : String)
  | unexpectedReturnValue (name : String)
  deriving DecidableEq, Repr

/-- A name as messages quote it. -/
def ticked (name : String) : String := "`" ++ name ++ "`"

/-- The wording of a mistake. -/
def Mistake.message : Mistake → String
  | .alreadyDeclared n => ticked n ++ " is already declared"
  | .notDeclared n => ticked n ++ " is not declared"
  | .typeMismatch expected found =>
    "Type mismatch: cannot assign " ++ found.name ++ " to " ++ expected.name
  | .coercion e => e.message
  | .illegalTopLevel => "Only variable and function declarations are allowed at the top level"
  | .illegalStatement what => what ++ " is not allowed inside a function body"
  | .illegalAssignmentTarget =>
    "Left side of an assignment must be a variable or an array element"
  | .callInGlobalInitializer => "Function calls are not allowed in global initializers"
  | .nonConstantInitializer => "Global initializer is not a constant expression"
  | .constEval e => "Cannot evaluate global initializer: " ++ e.message
  | .argumentCount n expected found =>
    ticked n ++ " takes " ++ toString expected ++ " argument(s) but " ++ toString found ++
      " were given"
  | .notAFunction n => ticked n ++ " is not a function"
  | .notAVariable n => ticked n ++ " is a function, not a variable"
  | .notCallable => "Only named functions can be called"
  | .voidValue n => ticked n ++ " returns void and has no value"
  | .voidVariable => "Variables cannot be declared void"
  | .invalidOperand op ty => "Operator " ++ ticked op ++ " cannot be applied to " ++ ty.name
  | .notAnArray n => ticked n ++ " is not an array"
  | .arrayAsValue n => "Array " ++ ticked n ++ " cannot be used as a value"
  | .arrayLength n => "Array " ++ ticked n ++ " needs a positive length"
  | .arrayInitializer n => "Array " ++ ticked n ++ " cannot have an initializer"
  | .arrayParameter n => "Parameter " ++ ticked n ++ " cannot be an array"
  | .parameterInitializer n => "Parameter " ++ ticked n ++ " cannot have a default value"
  | .mainParameters => "`main` cannot take parameters"
  | .breakOutsideLoop => "`break` outside of a loop"
  | .continueOutsideLoop => "`continue` outside of a loop"
  | .missingReturnValue n => ticked n ++ " must return a value"
  | .unexpectedReturnValue n => ticked n ++ " returns void and cannot return a value"

/-- How generated code fails to fit together. -/
inductive InternalError where
  /-- A variable of a function has no place in its frame. -/
  | unresolvedVariable (function key : String)
  | undefinedLabel (label : String)
  | labelRedefinition (label : String)
  /-- The instruction at this address still has an operand without a place. -/
  | pendingOperand (addr : Nat) (instr : String)
  deriving DecidableEq, Repr

/-- The wording of an internal error. -/
def InternalError.message : InternalError → String
  | .unresolvedVariable f key => "Unresolved variable " ++ ticked key ++ " in " ++ ticked f
  | .undefinedLabel l => "Undefined label: " ++ l
  | .labelRedefinition l => "Label redefinition: " ++ l
  | .pendingOperand addr i => "Pending operand left in " ++ ticked i ++ " at " ++ toString addr

/-- Why a program is not compiled. -/
inductive CompileError where
  | mistake (what : Mistake) (loc : Location)
  | internal (cause : InternalError)
  deriving DecidableEq, Repr

namespace CompileError

/-- The wording of an error without its place. -/
def message : CompileError → String
  | .mistake m _ => m.message
  | .internal e => e.message

/-- The wording of an error with its place. -/
def full : CompileError → String
  | .mistake m loc => loc.text ++ ": " ++ m.message
  | .internal e => "Internal compiler error: " ++ e.message

end CompileError

/-- A result of fitting code together, with its error as an error of the compiler. -/
def liftInternal {α : Type} : Except InternalError α → Except CompileError α
  | .ok a => .ok a
  | .error e => .error (.internal e)

/-- A result that may be a mistake at a place. -/
def Mistake.locate {α : Type} (loc : Location) : Except Mistake α → Except CompileError α
  | .ok a => .ok a
  | .error m => .error (.mistake m loc)

/-- A mistake at a place. -/
def Mistake.at {α : Type} (m : Mistake) (loc : Location) : Except CompileError α :=
  .error (.mistake m loc)

end Stepwise
