import Stepwise.Source.Tree
import Stepwise.Yaml.Node

/-!
# Programs as data

The data tree of a program and back. A node of the program is a mapping with the kind of the node as
its only key; operators are written by their symbols; optional parts that are absent are left out.
In reading, a place may be left out and is then unknown.

## Main definitions

* `Expr.toNode`, `Stmt.toNode`, `Program.toNode`: the data of a tree
* `exprOfNode?`, `stmtOfNode?`, `Program.ofNode?`: the tree of data
-/

namespace Stepwise

open Yaml

/-- The data of a place. -/
def Location.toNode (l : Location) : Node :=
  .map [("line", .int l.line), ("column", .int l.column)]

/-- The place of data. -/
def Location.ofNode? (node : Node) : Option Location := do
  let fields ← node.fields?
  return ⟨← required fields "line" Node.nat?, ← required fields "column" Node.nat?⟩

/-- The place in a record. -/
def locField (fields : Fields) : Option Location :=
  withDefault fields "loc" .unknown Location.ofNode?

/-- A node of a given kind. -/
def kindNode (kind : String) (fields : Fields) : Node := .map [(kind, .map fields)]

mutual

/-- The data of an expression. -/
def Expr.toNode : Expr → Node
  | .literal v loc => kindNode "Literal" [("value", .ofValue v), ("loc", loc.toNode)]
  | .ident name loc => kindNode "Identifier" [("name", .str name), ("loc", loc.toNode)]
  | .binary op left right loc =>
    kindNode "BinaryExpression"
      [("op", .str op.symbol), ("left", left.toNode), ("right", right.toNode), ("loc", loc.toNode)]
  | .unary op argument prefixed loc =>
    kindNode "UnaryExpression"
      [("op", .str op.symbol), ("argument", argument.toNode), ("prefix", .bool prefixed),
        ("loc", loc.toNode)]
  | .assign left right loc =>
    kindNode "AssignmentExpression"
      [("left", left.toNode), ("right", right.toNode), ("loc", loc.toNode)]
  | .call callee args loc =>
    kindNode "CallExpression"
      [("callee", callee.toNode), ("args", .seq (exprsToNodes args)), ("loc", loc.toNode)]
  | .member base index loc =>
    kindNode "MemberExpression"
      [("base", base.toNode), ("index", index.toNode), ("loc", loc.toNode)]

/-- The data of several expressions. -/
def exprsToNodes : List Expr → List Node
  | [] => []
  | e :: rest => e.toNode :: exprsToNodes rest

end

/-- The data of a declarator. -/
def Declarator.toNode (d : Declarator) : Node :=
  .map <| [("name", .str d.name)] ++ present "initializer" Expr.toNode d.initializer ++
    present "length" (fun n : Nat => .int n) d.length ++ [("loc", d.loc.toNode)]

/-- The fields of a declaration. -/
def Declaration.toFields (d : Declaration) : Fields :=
  [("type", .str d.ty.name), ("is_array", .bool d.isArray),
    ("declarators", .seq (d.declarators.map Declarator.toNode)), ("loc", d.loc.toNode)]

mutual

/-- The data of a statement. -/
def Stmt.toNode : Stmt → Node
  | .function name parameters body result loc =>
    kindNode "FunctionDeclaration"
      [("name", .str name), ("parameters", .seq (parameters.map fun d => .map d.toFields)),
        ("body", .seq (stmtsToNodes body)), ("return_type", .str result.name), ("loc", loc.toNode)]
  | .declare decl => kindNode "VariableDeclaration" decl.toFields
  | .block body loc => kindNode "Block" [("body", .seq (stmtsToNodes body)), ("loc", loc.toNode)]
  | .branch test consequent alternate loc =>
    kindNode "If" <| [("test", test.toNode), ("consequent", consequent.toNode)] ++
      (match alternate with | some s => [("alternate", s.toNode)] | none => []) ++
      [("loc", loc.toNode)]
  | .whileLoop test body loc =>
    kindNode "While" [("test", test.toNode), ("body", body.toNode), ("loc", loc.toNode)]
  | .doLoop body test loc =>
    kindNode "DoWhile" [("body", body.toNode), ("test", test.toNode), ("loc", loc.toNode)]
  | .forLoop init test update body loc =>
    kindNode "For" <| (match init with | some s => [("init", s.toNode)] | none => []) ++
      present "test" Expr.toNode test ++ present "update" Expr.toNode update ++
      [("body", body.toNode), ("loc", loc.toNode)]
  | .ret argument loc =>
    kindNode "Return" <| present "argument" Expr.toNode argument ++ [("loc", loc.toNode)]
  | .brk loc => kindNode "Break" [("loc", loc.toNode)]
  | .cont loc => kindNode "Continue" [("loc", loc.toNode)]
  | .expr e loc => kindNode "ExpressionStatement" [("expression", e.toNode), ("loc", loc.toNode)]

/-- The data of several statements. -/
def stmtsToNodes : List Stmt → List Node
  | [] => []
  | s :: rest => s.toNode :: stmtsToNodes rest

end

/-- The data of a program. -/
def Program.toNode (p : Program) : Node := .map [("statements", .seq (stmtsToNodes p.statements))]

/-- The kind and the fields of a node. -/
def kindOf? : Node → Option (String × Fields)
  | .map [(kind, body)] => body.fields?.map (kind, ·)
  | _ => none

/-- The expression of data; `fuel` bounds its height. -/
def exprOfNode? : Nat → Node → Option Expr
  | 0, _ => none
  | fuel + 1, node => do
    let (kind, fields) ← kindOf? node
    let sub (key : String) : Option Expr := required fields key (exprOfNode? fuel)
    match kind with
    | "Literal" => return .literal (← required fields "value" Node.value?) (← locField fields)
    | "Identifier" => return .ident (← required fields "name" Node.text?) (← locField fields)
    | "BinaryExpression" =>
      let op ← required fields "op" fun node => node.text?.bind BinaryOp.ofSymbol?
      return .binary op (← sub "left") (← sub "right") (← locField fields)
    | "UnaryExpression" =>
      let op ← required fields "op" fun node => node.text?.bind UnaryOp.ofSymbol?
      let prefixed ← withDefault fields "prefix" false Node.bool?
      return .unary op (← sub "argument") prefixed (← locField fields)
    | "AssignmentExpression" => return .assign (← sub "left") (← sub "right") (← locField fields)
    | "CallExpression" =>
      let args ← withDefault fields "args" [] (Node.list? (exprOfNode? fuel))
      return .call (← sub "callee") args (← locField fields)
    | "MemberExpression" => return .member (← sub "base") (← sub "index") (← locField fields)
    | _ => none

/-- The expression of data. -/
def Expr.ofNode? (node : Node) : Option Expr := exprOfNode? node.depth node

/-- The declarator of data. -/
def Declarator.ofNode? (node : Node) : Option Declarator := do
  let fields ← node.fields?
  return {
    name := ← required fields "name" Node.text?
    initializer := ← optional fields "initializer" Expr.ofNode?
    length := ← optional fields "length" Node.nat?
    loc := ← locField fields }

/-- The declaration of fields. -/
def Declaration.ofFields? (fields : Fields) : Option Declaration := do
  return {
    ty := ← required fields "type" Node.ty?
    isArray := ← withDefault fields "is_array" false Node.bool?
    declarators := ← required fields "declarators" (Node.list? Declarator.ofNode?)
    loc := ← locField fields }

/-- The declaration of data. -/
def Declaration.ofNode? (node : Node) : Option Declaration := node.fields?.bind ofFields?

/-- The statement of data; `fuel` bounds its height. -/
def stmtOfNode? : Nat → Node → Option Stmt
  | 0, _ => none
  | fuel + 1, node => do
    let (kind, fields) ← kindOf? node
    let sub (key : String) : Option Stmt := required fields key (stmtOfNode? fuel)
    let expr (key : String) : Option Expr := required fields key Expr.ofNode?
    match kind with
    | "FunctionDeclaration" =>
      let name ← required fields "name" Node.text?
      let parameters ← withDefault fields "parameters" [] (Node.list? Declaration.ofNode?)
      let body ← withDefault fields "body" [] (Node.list? (stmtOfNode? fuel))
      let result ← required fields "return_type" Node.ty?
      return .function name parameters body result (← locField fields)
    | "VariableDeclaration" => return .declare (← Declaration.ofFields? fields)
    | "Block" =>
      return .block (← required fields "body" (Node.list? (stmtOfNode? fuel))) (← locField fields)
    | "If" =>
      let alternate ← optional fields "alternate" (stmtOfNode? fuel)
      return .branch (← expr "test") (← sub "consequent") alternate (← locField fields)
    | "While" => return .whileLoop (← expr "test") (← sub "body") (← locField fields)
    | "DoWhile" => return .doLoop (← sub "body") (← expr "test") (← locField fields)
    | "For" =>
      let init ← optional fields "init" (stmtOfNode? fuel)
      let test ← optional fields "test" Expr.ofNode?
      let update ← optional fields "update" Expr.ofNode?
      return .forLoop init test update (← sub "body") (← locField fields)
    | "Return" => return .ret (← optional fields "argument" Expr.ofNode?) (← locField fields)
    | "Break" => return .brk (← locField fields)
    | "Continue" => return .cont (← locField fields)
    | "ExpressionStatement" => return .expr (← expr "expression") (← locField fields)
    | _ => none

/-- The statement of data. -/
def Stmt.ofNode? (node : Node) : Option Stmt := stmtOfNode? node.depth node

/-- The program of data. -/
def Program.ofNode? (node : Node) : Option Program := do
  let fields ← node.fields?
  return ⟨← required fields "statements" (Node.list? Stmt.ofNode?)⟩

end Stepwise
