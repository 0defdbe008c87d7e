import Stepwise.Layout.Globals
import Stepwise.Lowering.Snippet

/-!
# Lowering of expressions

The code of an expression and its type. The code leaves the value of the expression on top of the
stack; an assignment, a call or a step by one may also be lowered for its effect alone.

Lowering draws labels and scratch cells from a supply. It is recursive in the expression; what one
construct does with the lowered parts is a definition of its own, which takes the lowering of each
part as an action and runs those that it needs.

## Main definitions

* `Supply`, `Lower`: what lowering draws from
* `lower`, `lowerArgs`: expressions and arguments
* `lowerEffect`: expressions whose value is not needed
-/

namespace Stepwise.Lowering

open Snippet

/-- What lowering draws from: the number of labels given out and the global region. -/
structure Supply where
  labels : Nat
  globals : GlobalLayout

/-- Lowering may use up labels, add scratch cells, and find a mistake. -/
abbrev Lower := StateT Supply (Except CompileError)

/-- A new label of the function `fn`. -/
def freshLabel (fn kind : String) : Lower String := fun s =>
  .ok (fn ++ "." ++ kind ++ toString (s.labels + 1), { s with labels := s.labels + 1 })

/-- The scratch cell of a type as an operand. -/
def castOperand (ty : Ty) : Lower Operand := fun s =>
  let (offset, globals) := s.globals.castCell ty
  .ok ((Slot.global offset).operand none, { s with globals := globals })

/-- Checks that a type may be assigned to a slot. -/
def expect (ty found : Ty) (loc : Location) : Except CompileError Unit :=
  if assignable ty found then .ok () else (Mistake.typeMismatch ty found).at loc

/-- The operand and type of a variable that is not an array. -/
def scalarOperand (scope : Scope) (name : String) (loc : Location) :
    Except CompileError (Operand × Ty) := do
  match ← Mistake.locate loc (scope.resolve name) with
  | .variable v =>
    if v.isArray then (Mistake.arrayAsValue name).at loc else .ok (v.slot.operand none, v.ty)
  | .function _ => (Mistake.notAVariable name).at loc

/-- The slot and element type of an array, which must be named. -/
def arraySlot (scope : Scope) (base : Expr) : Except CompileError (Slot × Ty) := do
  match base with
  | .ident name loc =>
    match ← Mistake.locate loc (scope.resolve name) with
    | .variable v => if v.isArray then .ok (v.slot, v.ty) else (Mistake.notAnArray name).at loc
    | .function _ => (Mistake.notAVariable name).at loc
  | base => (Mistake.notAnArray "expression").at base.loc

/-- The code of the index of an array element, with the slot and element type of the array. -/
def lowerElement (scope : Scope) (base index : Expr) (lowered : Lower (Code × Ty)) :
    Lower (Code × Slot × Ty) := do
  let (slot, ty) ← arraySlot scope base
  let (code, indexTy) ← lowered
  if indexTy.isIntegral then return (code, slot, ty)
  else (Mistake.invalidOperand "[]" indexTy).at index.loc

/-- Converts the value on top of the stack. -/
def convertCode (source target : Ty) : Lower Code := do
  if source = target then return []
  else
    let cell ← castOperand target
    return Code.ofInstrs [.pop r0,
      (Instr.mov cell r0).withComment (source.name ++ " -> " ++ target.name), .push cell]

/-- Pushes a value for a slot of type `ty`. A literal is converted at once. -/
def valueFor (ty : Ty) (e : Expr) (lowered : Lower (Code × Ty)) : Lower Code := do
  match e with
  | .literal v loc =>
    let v ← convertConstant ty v loc
    return Code.located loc (Code.ofInstrs [.push (.imm v)])
  | e =>
    let (code, found) ← lowered
    expect ty found e.loc
    return code ++ (← convertCode found ty)

/-- Stores the value of an expression into `dest`, a slot of type `ty`. -/
def storeInto (scope : Scope) (dest : Operand) (ty : Ty) (e : Expr) (lowered : Lower (Code × Ty)) :
    Lower Code := do
  match e with
  | .literal v loc =>
    let v ← convertConstant ty v loc
    return Code.ofInstrs [.mov dest (.imm v)]
  | .ident name loc =>
    let (src, found) ← scalarOperand scope name loc
    expect ty found loc
    return Code.ofInstrs [.mov dest src]
  | e =>
    let (code, found) ← lowered
    expect ty found e.loc
    return code ++ Code.ofInstrs [.pop r0, .mov dest r0]

/-- Whether an expression is stored without code of its own. -/
def isImmediate : Expr → Bool
  | .literal _ _ | .ident _ _ => true
  | _ => false

/-- An assignment. The index of an array element waits on the stack while the right side is
evaluated. With `wantValue` the stored value is pushed at the end. -/
def assignment (scope : Scope) (left right : Expr) (loweredIndex loweredRight : Lower (Code × Ty))
    (wantValue : Bool) : Lower (Code × Ty) := do
  let (code, dest, ty) ← match left with
    | .ident name loc => do
      let (dest, ty) ← scalarOperand scope name loc
      let code ← storeInto scope dest ty right loweredRight
      pure (code, dest, ty)
    | .member (.ident name loc) index _ => do
      let (indexCode, slot, ty) ← lowerElement scope (.ident name loc) index loweredIndex
      let dest := slot.operand (some .ix)
      if isImmediate right then
        let store ← storeInto scope dest ty right loweredRight
        pure (indexCode ++ Code.ofInstrs [.pop ix] ++ store, dest, ty)
      else
        let (value, found) ← loweredRight
        expect ty found right.loc
        pure (indexCode ++ value ++ Code.ofInstrs [.pop r0, .pop ix, .mov dest r0], dest, ty)
    | left => Mistake.illegalAssignmentTarget.at left.loc
  return (code ++ (if wantValue then Code.ofInstrs [.push dest] else []), ty)

/-- The operation that a step by one compiles to. -/
def stepCode (op : UnaryOp) : OpCode := if op = .inc then .inc else .dec

/-- A step by one on a variable or an array element. With `wantValue` the new value is pushed if the
operator stands in front, else the old one. -/
def stepByOne (scope : Scope) (op : UnaryOp) (argument : Expr) (prefixed : Bool)
    (loweredIndex : Lower (Code × Ty)) (wantValue : Bool) : Lower (Code × Ty) := do
  let (address, dest, ty) ← match argument with
    | .ident name loc => do
      let (dest, ty) ← scalarOperand scope name loc
      pure (([] : Code), dest, ty)
    | .member (.ident name loc) index _ => do
      let (indexCode, slot, ty) ← lowerElement scope (.ident name loc) index loweredIndex
      pure (indexCode ++ Code.ofInstrs [.pop ix], slot.operand (some .ix), ty)
    | argument => Mistake.illegalAssignmentTarget.at argument.loc
  let ty ← Mistake.locate argument.loc (unaryType op ty)
  let change := Instr.unary (stepCode op) dest
  let apply : List Instr :=
    if wantValue then
      if prefixed then [change, .push dest] else [.push dest, change]
    else [change]
  return (address ++ Code.ofInstrs apply, ty)

/-- The signature of a callee, which must be a named function. -/
def calleeSignature (scope : Scope) (callee : Expr) :
    Except CompileError (String × Signature) := do
  match callee with
  | .ident name loc =>
    match ← Mistake.locate loc (scope.resolve name) with
    | .function f => .ok (name, f)
    | .variable _ => (Mistake.notAFunction name).at loc
  | callee => Mistake.notCallable.at callee.loc

/-- The target of a call. -/
def callTarget (name : String) (f : Signature) : Operand :=
  if f.external then .host name else .label name

/-- A call. Its arguments are pushed last to first. With `wantValue` the result is pushed; that of a
host function passes through a scratch cell of the declared type. -/
def functionCall (scope : Scope) (callee : Expr) (argc : Nat) (loc : Location)
    (loweredArgs : List Ty → Lower Code) (wantValue : Bool) : Lower (Code × Ty) := do
  let (name, f) ← calleeSignature scope callee
  if argc < f.params.length || (!f.variadic && f.params.length < argc) then
    (Mistake.argumentCount name f.params.length argc).at loc
  else if wantValue && f.ret == .void then
    (Mistake.voidValue name).at loc
  else
    let args ← loweredArgs f.params
    let call := args ++ Code.ofInstrs [(Instr.call (callTarget name f) argc).withComment name]
    if wantValue then
      if f.external then
        let cell ← castOperand f.ret
        return (call ++ Code.ofInstrs [
          (Instr.mov cell rv).withComment (name ++ " -> " ++ f.ret.name), .push cell], f.ret)
      else return (call ++ Code.ofInstrs [.push rv], f.ret)
    else return (call, f.ret)

/-- An operator that may skip its right side. -/
def shortCircuit (fn : String) (op : BinaryOp) (left right : Code) : Lower Code := do
  let yes ← freshLabel fn "true"
  let no ← freshLabel fn "false"
  let done ← freshLabel fn "end"
  let labels : TruthLabels := ⟨yes, no, done⟩
  if op = .and then return andCode labels left right
  else
    let rhs ← freshLabel fn "rhs"
    return orCode labels rhs left right

/-- Whether an operator may skip its right side. -/
def isLogical (op : BinaryOp) : Bool := op == .and || op == .or

/-- Whether an operator is a step by one. -/
def isStep (op : UnaryOp) : Bool := op == .inc || op == .dec

/-- Gives the code a place wherever it has none. -/
def atLoc (loc : Location) (x : Lower (Code × Ty)) : Lower (Code × Ty) := do
  let (code, ty) ← x
  return (Code.located loc code, ty)

/-- An index of something that is not an array element; it is never run. -/
def noIndex : Lower (Code × Ty) := pure ([], .void)

mutual

/-- The code of an expression in the function `fn`, and its type. -/
def lower (fn : String) (scope : Scope) : Expr → Lower (Code × Ty)
  | .literal v loc => atLoc loc <| pure (Code.ofInstrs [.push (.imm v)], v.ty)
  | .ident name loc => atLoc loc do
    let (src, ty) ← scalarOperand scope name loc
    return (Code.ofInstrs [.push src], ty)
  | .member base index loc => atLoc loc do
    let (code, slot, ty) ← lowerElement scope base index (lower fn scope index)
    return (code ++ Code.ofInstrs [.pop ix, .push (slot.operand (some .ix))], ty)
  | .binary op left right loc => atLoc loc do
    let (leftCode, leftTy) ← lower fn scope left
    let (rightCode, rightTy) ← lower fn scope right
    let ty ← Mistake.locate loc (binaryType op leftTy rightTy)
    if isLogical op then return (← shortCircuit fn op leftCode rightCode, ty)
    else return (binaryCode op leftCode rightCode, ty)
  | .unary op argument prefixed loc => atLoc loc <|
    if isStep op then
      let index := match argument with
        | .member _ index _ => lower fn scope index
        | _ => noIndex
      stepByOne scope op argument prefixed index true
    else do
      let (code, ty) ← lower fn scope argument
      let ty ← Mistake.locate loc (unaryType op ty)
      return (unaryCode op code, ty)
  | .assign left right loc => atLoc loc <|
    let index := match left with
      | .member _ index _ => lower fn scope index
      | _ => noIndex
    assignment scope left right index (lower fn scope right) true
  | .call callee args loc => atLoc loc <|
    functionCall scope callee args.length loc (lowerArgs fn scope args) true

/-- The code that pushes arguments, last to first. Those that have a parameter are converted to its
type. -/
def lowerArgs (fn : String) (scope : Scope) : List Expr → List Ty → Lower Code
  | [], _ => pure []
  | arg :: rest, params => do
    let after ← lowerArgs fn scope rest params.tail
    let here ← match params.head? with
      | some ty => valueFor ty arg (lower fn scope arg)
      | none => Prod.fst <$> lower fn scope arg
    return after ++ here

end

/-- The code of the index of an array element. -/
def lowerIndex (fn : String) (scope : Scope) : Expr → Lower (Code × Ty)
  | .member _ index _ => lower fn scope index
  | _ => noIndex

/-- The code of an expression whose value is not needed. -/
def lowerEffect (fn : String) (scope : Scope) (e : Expr) : Lower Code := do
  match e with
  | .assign left right _ =>
    let (code, _) ← assignment scope left right (lowerIndex fn scope left)
      (lower fn scope right) false
    return code
  | .call callee args loc =>
    let (code, _) ← functionCall scope callee args.length loc (lowerArgs fn scope args) false
    return code
  | .unary op argument prefixed loc =>
    if isStep op then
      let (code, _) ← stepByOne scope op argument prefixed (lowerIndex fn scope argument) false
      return code
    else
      let (code, _) ← lower fn scope (.unary op argument prefixed loc)
      return code ++ Code.ofInstrs [.pop r0]
  | e =>
    let (code, _) ← lower fn scope e
    return code ++ Code.ofInstrs [.pop r0]

end Stepwise.Lowering
