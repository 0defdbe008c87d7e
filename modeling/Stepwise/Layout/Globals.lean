import Stepwise.Image
import Stepwise.Layout.Constant

/-!
# The global region

Where global variables lie and what they first hold. Beside the declared variables, the region has
scratch cells: a store converts to the type of its slot, so passing a value through a cell of a type
converts it to that type. There is at most one cell for each type, made when it is first needed.

## Main definitions

* `GlobalLayout`: the region as far as it is laid out
* `GlobalLayout.declare`: the variables of a declaration
* `GlobalLayout.castCell`: the scratch cell of a type
-/

namespace Stepwise

/-- The global region. -/
structure GlobalLayout where
  values : Array Value
  entries : Table DataEntry
  /-- The offsets of the scratch cells. -/
  casts : List (Ty × Nat)

/-- The length of an array declarator. -/
def Declarator.arrayLength (d : Declarator) : Except CompileError Nat :=
  match d.initializer, d.length with
  | some _, _ => (Mistake.arrayInitializer d.name).at d.loc
  | none, some (n + 1) => .ok (n + 1)
  | none, _ => (Mistake.arrayLength d.name).at d.loc

/-- A value checked and converted for a slot of a given type. -/
def convertConstant (ty : Ty) (v : Value) (loc : Location) : Except CompileError Value :=
  if accepts ty v then
    match coerce ty v with
    | .ok w => .ok w
    | .error e => (Mistake.coercion e).at loc
  else (Mistake.typeMismatch ty v.ty).at loc

namespace GlobalLayout

/-- The empty region. -/
def empty : GlobalLayout := ⟨#[], .empty, []⟩

/-- The scratch cell of a type. -/
def castCell (g : GlobalLayout) (ty : Ty) : Nat × GlobalLayout :=
  match g.casts.lookup ty with
  | some offset => (offset, g)
  | none =>
    let offset := g.values.size
    (offset, {
      values := g.values.push (.defaultOf ty)
      entries := g.entries.insert ("cast:" ++ ty.name) ⟨offset, ty, none⟩
      casts := g.casts ++ [(ty, offset)] })

/-- The first contents of a declarator of a given type, and its value if it is not an array. -/
def contents (scope : Scope) (decl : Declaration) (d : Declarator) :
    Except CompileError (List Value × Option Nat × Option Value) := do
  if decl.isArray then
    let n ← d.arrayLength
    return (List.replicate n (.defaultOf decl.ty), some n, none)
  else
    let v ← match d.initializer with
      | some init => do
        let v ← constant scope init
        convertConstant decl.ty v init.loc
      | none => .ok (.defaultOf decl.ty)
    return ([v], none, some v)

/-- Lays out one declarator. -/
def declareOne (decl : Declaration) (g : GlobalLayout) (scope : Scope) (d : Declarator) :
    Except CompileError (GlobalLayout × Scope) := do
  let (values, length, value) ← contents scope decl d
  let offset := g.values.size
  let scope ← Mistake.locate d.loc <| scope.declare d.name <|
    .variable ⟨decl.ty, decl.isArray, length, value, .global offset⟩
  return ({ g with
    values := g.values ++ values.toArray
    entries := g.entries.insert d.name ⟨offset, decl.ty, length⟩ }, scope)

/-- Lays out declarators one after the other. -/
def declareAll (decl : Declaration) (g : GlobalLayout) (scope : Scope) :
    List Declarator → Except CompileError (GlobalLayout × Scope)
  | [] => .ok (g, scope)
  | d :: rest => do
    let (g, scope) ← declareOne decl g scope d
    declareAll decl g scope rest

/-- Lays out the variables of a global declaration and declares them. -/
def declare (g : GlobalLayout) (scope : Scope) (decl : Declaration) :
    Except CompileError (GlobalLayout × Scope) :=
  if decl.ty = .void then Mistake.voidVariable.at decl.loc
  else declareAll decl g scope decl.declarators

end GlobalLayout

end Stepwise
