import Stepwise.Lowering.Function

/-!
# The compiler

From a program to an image. First the names of host functions and of all functions are declared, so
that a call may precede the function; then the declarations are compiled in their order, and each
function sees the globals before it. The code starts with a stub that calls `main` and jumps to the
end.

## Main definitions

* `HostDecl`, `builtins`: host functions that a program may call
* `compile`: the image of a program
-/

namespace Stepwise

/-- The declaration of a host function. -/
structure HostDecl where
  name : String
  params : List Ty
  ret : Ty
  /-- Whether more arguments of any type may follow. -/
  variadic : Bool
  deriving DecidableEq, Repr

/-- The functions of the console. -/
def builtins : List HostDecl :=
  [⟨"print", [], .void, true⟩, ⟨"println", [], .void, true⟩]

namespace Compiler

open Lowering

/-- The label one past the last instruction, where a finished program ends. -/
def haltLabel : String := "__halt"

/-- The host functions by name; a later declaration replaces an earlier one. -/
def hostTable (hosts : List HostDecl) : Table HostDecl := .ofList (hosts.map fun d => (d.name, d))

/-- Declares host functions. -/
def declareHosts (scope : Scope) : List HostDecl → Except CompileError Scope
  | [] => .ok scope
  | d :: rest => do
    let scope ← Mistake.locate .unknown <| scope.declare d.name <|
      .function ⟨d.params, d.ret, true, d.variadic⟩
    declareHosts scope rest

/-- Declares the functions of a program. -/
def declareFunctions (scope : Scope) : List Stmt → Except CompileError Scope
  | [] => .ok scope
  | s :: rest =>
    match s.function? with
    | none => declareFunctions scope rest
    | some f => do
      let params ← parameterTypes f
      let scope ← Mistake.locate f.loc <| scope.declare f.name <|
        .function ⟨params, f.ret, false, false⟩
      declareFunctions scope rest

/-- A program whose declarations are compiled so far. -/
structure Progress where
  scope : Scope
  globals : GlobalLayout
  functions : List CompiledFunction

/-- Compiles one declaration. -/
def compileStmt (p : Progress) (s : Stmt) : Except CompileError Progress :=
  match s with
  | .declare decl => do
    let (globals, scope) ← p.globals.declare p.scope decl
    return { p with scope := scope, globals := globals }
  | s =>
    match s.function? with
    | some f => do
      let (function, globals) ← compileFunction p.scope p.globals f
      return { p with globals := globals, functions := p.functions ++ [function] }
    | none => Mistake.illegalTopLevel.at s.loc

/-- Whether the program has a `main` of its own. -/
def hasMain (scope : Scope) : Bool :=
  match scope.get? "main" with
  | some (.function f) => !f.external
  | _ => false

/-- The code at the start of the program. -/
def stub (scope : Scope) : Code :=
  Code.ofInstrs <|
    (if hasMain scope then [(Instr.call (.label "main") 0).withComment "main"] else []) ++
      [.jmp (.label haltLabel)]

/-- The code entries of functions that follow each other from an address on. -/
def codeEntries (addr : Nat) : List CompiledFunction → List (String × CodeEntry)
  | [] => []
  | f :: rest =>
    let size := Code.size f.code
    (f.name, ⟨addr, size, f.ret, f.frame⟩) :: codeEntries (addr + size) rest

/-- The image of a program whose declarations are compiled. -/
def link (p : Progress) : Except InternalError Image := do
  let start := stub p.scope
  let code := start ++ p.functions.flatMap (·.code) ++ [.label haltLabel]
  let instrs ← assemble code
  checkResolved instrs
  return {
    code := instrs.toArray
    globals := p.globals.values
    symbols := ⟨.ofList (codeEntries (Code.size start) p.functions), p.globals.entries⟩ }

/-- The names that all functions of a program see. -/
def signatures (hosts : List HostDecl) (program : Program) : Except CompileError Scope := do
  let scope ← declareHosts .root ((hostTable hosts).entries.map (·.2))
  declareFunctions scope program.statements

end Compiler

/-- The image of a program that may call the given host functions. -/
def compile (hosts : List HostDecl) (program : Program) : Except CompileError Image := do
  let scope ← Compiler.signatures hosts program
  let progress ← program.statements.foldlM Compiler.compileStmt ⟨scope, .empty, []⟩
  liftInternal (Compiler.link progress)

end Stepwise
