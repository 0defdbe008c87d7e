import Stepwise.Layout.Frame
import Stepwise.Lowering.Expr

/-!
# Lowering of statements

The code of a statement. Local variables get their slots as they are declared. A slot is reserved by
pushing a first value: at the top level of a function body this happens at the declaration itself,
below it in front of the whole body statement, so that the height of the stack at a place of the
code never depends on the way there. A declaration below the top level stores its initial value each
time it is reached.

## Main definitions

* `Draft`, `Build`: the function under construction
* `Site`: where in the function a statement stands
* `lowerStmt`, `lowerStmts`: statements
-/

namespace Stepwise.Lowering

open Snippet

/-- A function under construction. -/
structure Draft where
  supply : Supply
  frame : FrameLayout
  /-- Reservations for declarations below the current body statement. -/
  reserved : Code
  scope : Scope

/-- Construction of a function. -/
abbrev Build := StateT Draft (Except CompileError)

/-- Where `continue` and `break` of a loop go. -/
structure LoopLabels where
  next : String
  exit : String

/-- Where a statement stands: in which function and loop, and whether below the top level. -/
structure Site where
  fn : String
  ret : Ty
  loop : Option LoopLabels
  nested : Bool

/-- Lowers an expression in the current scope. -/
def Build.ofLower {α : Type} (f : Scope → Lower α) : Build α := fun d => do
  let (a, supply) ← f d.scope d.supply
  return (a, { d with supply := supply })

/-- A new label. -/
def buildLabel (site : Site) (kind : String) : Build String :=
  .ofLower fun _ => freshLabel site.fn kind

/-- Runs a construction in a scope of its own. -/
def inChild {α : Type} (x : Build α) : Build α := fun d => do
  let (a, d') ← x { d with scope := d.scope.child }
  return (a, { d' with scope := d.scope })

/-- Adds a local variable to the frame and gives its key. -/
def allocate (name : String) (ty : Ty) (length : Option Nat) : Build String := fun d =>
  let ((key, _), frame) := d.frame.addLocal name ty length
  .ok (key, { d with frame := frame })

/-- Declares a variable in the current scope. -/
def declareVariable (name : String) (v : Variable) (loc : Location) : Build Unit := fun d => do
  let scope ← Mistake.locate loc (d.scope.declare name (.variable v))
  return ((), { d with scope := scope })

/-- Reserves slots in front of the current body statement. -/
def reserve (code : Code) : Build Unit := fun d =>
  .ok ((), { d with reserved := d.reserved ++ code })

/-- The remark at the slot of a variable. -/
def slotComment (ty : Ty) (name : String) : String := ty.name ++ " " ++ name

/-- The slots of an array, all with the default value of its type. -/
def arraySlots (ty : Ty) (d : Declarator) (length : Nat) : Code :=
  Code.ofInstrs <| (List.range length).map fun k =>
    ((Instr.push (.imm (.defaultOf ty))).withComment
      (slotComment ty d.name ++ "[" ++ toString k ++ "]")).withOrigin d.loc

/-- Declares a local array. -/
def declareArray (site : Site) (ty : Ty) (d : Declarator) : Build Code := do
  let length ← d.arrayLength
  let key ← allocate d.name ty (some length)
  declareVariable d.name ⟨ty, true, some length, none, .frame key⟩ d.loc
  let slots := arraySlots ty d length
  if site.nested then
    reserve slots
    return []
  else return slots

/-- How a variable gets its first value. -/
inductive Initial where
  /-- It is the default value of the type. -/
  | default
  /-- It is a constant, already converted. -/
  | constant (value : Value)
  /-- It is computed by code that stores it. -/
  | computed (store : Code)

/-- The constant that initializes a variable, if its initializer is a literal. -/
def literalInitial (ty : Ty) (d : Declarator) : Except CompileError (Option Value) :=
  match d.initializer with
  | some (.literal v loc) => (convertConstant ty v loc).map some
  | _ => .ok none

/-- The slot of a variable and the store of its first value. -/
def scalarCode (site : Site) (ty : Ty) (name : String) (loc : Location) (dest : Operand)
    (initial : Initial) : Build Code := do
  let slot (v : Value) := (Instr.push (.imm v)).withComment (slotComment ty name)
  if site.nested then
    reserve (Code.ofInstrs [(slot (.defaultOf ty)).withOrigin loc])
    return match initial with
      | .default => Code.ofInstrs [.mov dest (.imm (.defaultOf ty))]
      | .constant v => Code.ofInstrs [.mov dest (.imm v)]
      | .computed store => store
  else
    return match initial with
      | .default => Code.ofInstrs [slot (.defaultOf ty)]
      | .constant v => Code.ofInstrs [slot v]
      | .computed store => Code.ofInstrs [slot (.defaultOf ty)] ++ store

/-- Declares a local variable that is not an array. Its initializer does not see it. -/
def declareScalar (site : Site) (ty : Ty) (d : Declarator) : Build Code := do
  let literal ← literalInitial ty d
  let key ← allocate d.name ty none
  let dest := (Slot.frame key).operand none
  let initial ← match literal, d.initializer with
    | some v, _ => pure (Initial.constant v)
    | none, some init => do
      let store ← Build.ofLower fun scope =>
        storeInto scope dest ty init (lower site.fn scope init)
      pure (Initial.computed store)
    | none, none => pure Initial.default
  declareVariable d.name ⟨ty, false, none, none, .frame key⟩ d.loc
  let code ← scalarCode site ty d.name d.loc dest initial
  return Code.located d.loc code

/-- Declares local variables one after the other. -/
def declareLocals (site : Site) (decl : Declaration) : List Declarator → Build Code
  | [] => pure []
  | d :: rest => do
    let code ← if decl.isArray then declareArray site decl.ty d else declareScalar site decl.ty d
    return code ++ (← declareLocals site decl rest)

/-- The code of a local declaration. -/
def lowerDeclaration (site : Site) (decl : Declaration) : Build Code :=
  if decl.ty = .void then Mistake.voidVariable.at decl.loc
  else declareLocals site decl decl.declarators

/-- The code of an expression in the current scope. -/
def buildExpr (site : Site) (e : Expr) : Build Code :=
  .ofLower fun scope => Prod.fst <$> lower site.fn scope e

/-- The code of an expression whose value is not needed. -/
def buildEffect (site : Site) (e : Expr) : Build Code :=
  .ofLower fun scope => lowerEffect site.fn scope e

/-- The code of a return. -/
def lowerReturn (site : Site) (argument : Option Expr) (loc : Location) : Build Code :=
  match argument with
  | none =>
    if site.ret = .void then pure (Code.ofInstrs [.ret])
    else (Mistake.missingReturnValue site.fn).at loc
  | some e =>
    if site.ret = .void then (Mistake.unexpectedReturnValue site.fn).at loc
    else do
      let code ← Build.ofLower fun scope => valueFor site.ret e (lower site.fn scope e)
      return code ++ Code.ofInstrs [.pop rv, .ret]

/-- The code that leaves the current pass of a loop. -/
def lowerJump (site : Site) (target : LoopLabels → String) (outside : Mistake) (loc : Location) :
    Build Code :=
  match site.loop with
  | some l => pure [jump (target l)]
  | none => outside.at loc

mutual

/-- The code of a statement. -/
def lowerStmt (site : Site) : Stmt → Build Code
  | .function _ _ _ _ loc => (Mistake.illegalStatement "A function declaration").at loc
  | .declare decl => Code.located decl.loc <$> lowerDeclaration site decl
  | .block body loc =>
    Code.located loc <$> inChild (lowerStmts { site with nested := true } body)
  | .branch test consequent alternate loc => Code.located loc <$> do
    let inner := { site with nested := true }
    let testCode ← buildExpr site test
    let thenCode ← inChild (lowerStmt inner consequent)
    let done ← buildLabel site "endif"
    match alternate with
    | none => return branchCode done testCode thenCode
    | some s =>
      let elseCode ← inChild (lowerStmt inner s)
      let other ← buildLabel site "else"
      return branchElseCode done other testCode thenCode elseCode
  | .whileLoop test body loc => Code.located loc <$> do
    let top ← buildLabel site "while"
    let exit ← buildLabel site "endwhile"
    let testCode ← buildExpr site test
    let bodyCode ← inChild (lowerStmt { site with nested := true, loop := some ⟨top, exit⟩ } body)
    return whileCode top exit testCode bodyCode
  | .doLoop body test loc => Code.located loc <$> do
    let top ← buildLabel site "do"
    let next ← buildLabel site "test"
    let exit ← buildLabel site "enddo"
    let bodyCode ← inChild (lowerStmt { site with nested := true, loop := some ⟨next, exit⟩ } body)
    let testCode ← buildExpr site test
    return doCode top next exit bodyCode testCode
  | .forLoop init test update body loc => Code.located loc <$> inChild do
    let inner := { site with nested := true }
    let initCode ← match init with
      | some s => lowerStmt inner s
      | none => pure []
    let top ← buildLabel site "for"
    let next ← buildLabel site "next"
    let exit ← buildLabel site "endfor"
    let testCode ← match test with
      | some e => some <$> buildExpr inner e
      | none => pure none
    let bodyCode ← inChild (lowerStmt { inner with loop := some ⟨next, exit⟩ } body)
    let updateCode ← match update with
      | some e => Code.located e.loc <$> buildEffect inner e
      | none => pure []
    return forCode top next exit initCode testCode bodyCode updateCode
  | .ret argument loc => Code.located loc <$> lowerReturn site argument loc
  | .brk loc => Code.located loc <$> lowerJump site LoopLabels.exit .breakOutsideLoop loc
  | .cont loc => Code.located loc <$> lowerJump site LoopLabels.next .continueOutsideLoop loc
  | .expr e loc => Code.located loc <$> buildEffect site e

/-- The code of statements one after the other. -/
def lowerStmts (site : Site) : List Stmt → Build Code
  | [] => pure []
  | s :: rest => do
    let code ← lowerStmt site s
    return code ++ (← lowerStmts site rest)

end

end Stepwise.Lowering
