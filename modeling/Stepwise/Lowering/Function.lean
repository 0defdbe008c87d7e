import Stepwise.Lowering.Stmt

/-!
# Lowering of functions

The code of a function: its label, the statements of its body with the reservations that they need
in front, and a return at the end. At last the variables get their addresses.

## Main definitions

* `parameterTypes`: the types of the parameters, which must be plain
* `CompiledFunction`, `compileFunction`: a function with its code and frame
-/

namespace Stepwise.Lowering

/-- The parameter types of a declaration of parameters. -/
def declaratorTypes (decl : Declaration) : List Declarator → Except CompileError (List Ty)
  | [] => .ok []
  | d :: rest => do
    if decl.isArray then (Mistake.arrayParameter d.name).at d.loc
    else if d.initializer.isSome then (Mistake.parameterInitializer d.name).at d.loc
    else return decl.ty :: (← declaratorTypes decl rest)

/-- The parameter types of several declarations of parameters. -/
def declarationTypes : List Declaration → Except CompileError (List Ty)
  | [] => .ok []
  | decl :: rest => do
    if decl.ty = .void then Mistake.voidVariable.at decl.loc
    else
      let types ← declaratorTypes decl decl.declarators
      return types ++ (← declarationTypes rest)

/-- The parameter types of a function. `main` has none. -/
def parameterTypes (f : Function) : Except CompileError (List Ty) :=
  if f.name = "main" ∧ ¬ f.parameters.isEmpty then Mistake.mainParameters.at f.loc
  else declarationTypes f.parameters

/-- Adds the parameters of a declaration to the frame and the scope. -/
def declareParams (ty : Ty) : List Declarator → Build Unit
  | [] => pure ()
  | d :: rest => do
    let draft ← get
    let (key, frame) := draft.frame.addParam d.name ty
    set { draft with frame := frame }
    declareVariable d.name ⟨ty, false, none, none, .frame key⟩ d.loc
    declareParams ty rest

/-- Adds all parameters to the frame and the scope. -/
def declareParameters : List Declaration → Build Unit
  | [] => pure ()
  | decl :: rest => do
    declareParams decl.ty decl.declarators
    declareParameters rest

/-- Takes the reservations that the last body statement asked for. -/
def takeReserved : Build Code := fun d => .ok (d.reserved, { d with reserved := [] })

/-- The code of a function body, each statement with its reservations in front. -/
def lowerBody (site : Site) : List Stmt → Build Code
  | [] => pure []
  | s :: rest => do
    let code ← lowerStmt site s
    let reserved ← takeReserved
    return reserved ++ code ++ (← lowerBody site rest)

/-- A function with its code, in which every variable has an address, and its frame. -/
structure CompiledFunction where
  name : String
  ret : Ty
  code : Code
  frame : Table FrameEntry

/-- Puts addresses in the place of variables. -/
def resolveCode (frame : FrameLayout) (fn : String) : Code → Except InternalError Code
  | [] => .ok []
  | .label name :: rest => do
    return .label name :: (← resolveCode frame fn rest)
  | .instr i :: rest => do
    let i ← i.mapOperands (frame.resolve fn)
    return .instr i :: (← resolveCode frame fn rest)

/-- The code of a function before its variables have addresses. -/
def draftFunction (f : Function) : Build Code := do
  declareParameters f.parameters
  let body ← lowerBody ⟨f.name, f.ret, none, false⟩ f.body
  return [.label f.name] ++ body ++ Code.ofInstrs [Instr.ret.withOrigin f.loc]

/-- Compiles a function in the scope of the program. -/
def compileFunction (scope : Scope) (globals : GlobalLayout) (f : Function) :
    Except CompileError (CompiledFunction × GlobalLayout) := do
  let (code, draft) ← draftFunction f ⟨⟨0, globals⟩, .empty, [], scope.child⟩
  let code ← liftInternal (resolveCode draft.frame f.name code)
  return (⟨f.name, f.ret, code, draft.frame.entries⟩, draft.supply.globals)

end Stepwise.Lowering
