import Mathlib
import Stepwise.Format.File
import Stepwise.Proofs.Compilation

/-!
# Files are read back

A program or an image that is written to a file is read back as it was. The data of a tree and of an
image is read back without loss, and the rest is that the text of this data is read back as this
data. Numbers of the language have 64 bits, so a number that is written must have no more.

## Main definitions

* `Program.fits`, `Image.fits`: all numbers are numbers of 64 bits
* `Expr.kind`, `Stmt.kind`: the kinds of nodes
* `Yaml.Node.hasNull`: nothing at all stands somewhere in the data
* `Yaml.Node.Stable`: the text of the data is read back

## Main results

* `files_round_trip`: programs and images are read back from their files
-/

namespace Stepwise

open Yaml

/-! ## Numbers of 64 bits -/

/-- A natural number of 64 bits. -/
def fitsNat (n : Nat) : Bool := n ≤ Decimal.maxNatWord

/-- The numbers of a place have 64 bits. -/
def Location.fits (l : Location) : Bool := fitsNat l.line && fitsNat l.column

mutual

/-- The numbers in an expression have 64 bits. -/
def Expr.fits : Expr → Bool
  | .literal _ loc | .ident _ loc => loc.fits
  | .binary _ left right loc | .assign left right loc | .member left right loc =>
    left.fits && right.fits && loc.fits
  | .unary _ argument _ loc => argument.fits && loc.fits
  | .call callee args loc => callee.fits && exprsFit args && loc.fits

/-- The numbers in several expressions have 64 bits. -/
def exprsFit : List Expr → Bool
  | [] => true
  | e :: rest => e.fits && exprsFit rest

end

/-- The numbers of a declarator have 64 bits. -/
def Declarator.fits (d : Declarator) : Bool :=
  d.initializer.all Expr.fits && d.length.all fitsNat && d.loc.fits

/-- The numbers of a declaration have 64 bits. -/
def Declaration.fits (d : Declaration) : Bool := d.declarators.all Declarator.fits && d.loc.fits

mutual

/-- The numbers in a statement have 64 bits. -/
def Stmt.fits : Stmt → Bool
  | .function _ parameters body _ loc =>
    parameters.all Declaration.fits && stmtsFit body && loc.fits
  | .declare decl => decl.fits
  | .block body loc => stmtsFit body && loc.fits
  | .branch test consequent alternate loc =>
    test.fits && consequent.fits && (match alternate with | some s => s.fits | none => true) &&
      loc.fits
  | .whileLoop test body loc | .doLoop body test loc => test.fits && body.fits && loc.fits
  | .forLoop init test update body loc =>
    (match init with | some s => s.fits | none => true) && test.all Expr.fits &&
      update.all Expr.fits && body.fits && loc.fits
  | .ret argument loc => argument.all Expr.fits && loc.fits
  | .brk loc | .cont loc => loc.fits
  | .expr e loc => e.fits && loc.fits

/-- The numbers in several statements have 64 bits. -/
def stmtsFit : List Stmt → Bool
  | [] => true
  | s :: rest => s.fits && stmtsFit rest

end

/-- The numbers in a program have 64 bits. -/
def Program.fits (p : Program) : Bool := stmtsFit p.statements

/-- The numbers of an operand have 64 bits. -/
def Operand.fits : Operand → Bool
  | .ptr p => Decimal.fitsWord p.offset
  | _ => true

/-- The numbers of an instruction have 64 bits. -/
def Instr.fits (i : Instr) : Bool :=
  i.dest.all Operand.fits && i.src.all Operand.fits && i.origin.all Location.fits

/-- The numbers of the place of a local variable have 64 bits. -/
def FrameEntry.fits (e : FrameEntry) : Bool := Decimal.fitsWord e.offset && e.length.all fitsNat

/-- The numbers of the place of a global variable have 64 bits. -/
def DataEntry.fits (e : DataEntry) : Bool := fitsNat e.offset && e.length.all fitsNat

/-- The numbers of the code of a function have 64 bits. -/
def CodeEntry.fits (e : CodeEntry) : Bool :=
  fitsNat e.addr && fitsNat e.size && e.frame.entries.all fun x => x.2.fits

/-- The numbers in an image have 64 bits. -/
def Image.fits (i : Image) : Bool :=
  i.code.toList.all Instr.fits && i.symbols.code.entries.all (fun x => x.2.fits) &&
    i.symbols.data.entries.all fun x => x.2.fits

/-! ## Records -/

theorem exprsToNodes_eq_map (es : List Expr) : exprsToNodes es = es.map Expr.toNode := by
  induction es with
  | nil => rfl
  | cons e es ih => rw [exprsToNodes, ih, List.map_cons]

theorem stmtsToNodes_eq_map (ss : List Stmt) : stmtsToNodes ss = ss.map Stmt.toNode := by
  induction ss with
  | nil => rfl
  | cons s ss ih => rw [stmtsToNodes, ih, List.map_cons]

theorem exprsFit_eq_all (es : List Expr) : exprsFit es = es.all Expr.fits := by
  induction es with
  | nil => rfl
  | cons e es ih => rw [exprsFit, ih, List.all_cons]

theorem stmtsFit_eq_all (ss : List Stmt) : stmtsFit ss = ss.all Stmt.fits := by
  induction ss with
  | nil => rfl
  | cons s ss ih => rw [stmtsFit, ih, List.all_cons]

/-- Data that is read back one by one is read back as a list. -/
theorem list?_map {α : Type} {f : Node → Option α} {g : α → Node} {xs : List α}
    (h : ∀ x ∈ xs, f (g x) = some x) : Node.list? f (.seq (xs.map g)) = some xs := by
  show (xs.map g).mapM f = some xs
  induction xs with
  | nil => rfl
  | cons x xs ih =>
    rw [List.forall_mem_cons] at h
    rw [List.map_cons, List.mapM_cons, h.1, ih h.2]
    rfl

theorem depth_le_depthItems {node : Node} {items : List Node} (h : node ∈ items) :
    node.depth ≤ Node.depthItems items := by
  induction items with
  | nil => cases h
  | cons item items ih =>
    rw [Node.depthItems]
    rcases List.mem_cons.mp h with rfl | h
    · exact le_max_left _ _
    · exact (ih h).trans (le_max_right _ _)

theorem depth_le_of_lookup {key : String} {node : Node} {fields : Fields}
    (h : fields.lookup key = some node) : node.depth ≤ Node.depthFields fields := by
  induction fields with
  | nil => cases h
  | cons field fields ih =>
    rw [Node.depthFields]
    rw [List.lookup] at h
    split at h
    · rw [← Option.some.inj h]
      exact le_max_left _ _
    · exact (ih h).trans (le_max_right _ _)

theorem depth_kindNode (kind : String) (fields : Fields) :
    (kindNode kind fields).depth = Node.depthFields fields + 2 := by
  simp [kindNode, Node.depth, Node.depthFields]

theorem lookup_present {α : Type} (key k : String) (f : α → Node) (o : Option α) :
    (present key f o).lookup k = if k = key then o.map f else none := by
  cases o with
  | none => simp [present]
  | some a =>
    by_cases hk : k = key
    · simp [present, hk]
    · simp [present, List.lookup, hk, beq_false_of_ne hk]

/-- A field that is written only if it is there is read back. -/
theorem optional_eq_some {α : Type} {fields : Fields} {key : String} {f : Node → Option α}
    {g : α → Node} {o : Option α} (hlookup : fields.lookup key = o.map g)
    (h : ∀ a ∈ o, (g a).option? f = some (some a)) : Yaml.optional fields key f = some o := by
  rw [Yaml.optional, hlookup]
  cases o with
  | none => rfl
  | some a => exact h a rfl

theorem nat?_int {n : Nat} (h : fitsNat n = true) : Node.nat? (.int n) = some n := by
  have hle : n ≤ Decimal.maxNatWord := by simpa [fitsNat] using h
  rw [Node.nat?, if_pos ⟨Int.natCast_nonneg n, Int.ofNat_le.mpr hle⟩, Int.toNat_natCast]

theorem int?_int {n : Int} (h : Decimal.fitsWord n = true) : Node.int? (.int n) = some n := by
  rw [Node.int?, if_pos h]

/-- **A value is read back as the value of the same kind.** -/
theorem value?_ofValue (v : Value) : (Node.ofValue v).value? = some v := by
  cases v with
  | int n =>
    have hfits : Decimal.fitsWord n.toInt = true := by
      have hle := Int64.le_toInt n
      have hlt := Int64.toInt_lt n
      rw [Decimal.fitsWord, Bool.and_eq_true, decide_eq_true_iff, decide_eq_true_iff]
      exact ⟨hle, Int.le_of_lt_add_one hlt⟩
    rw [Node.ofValue, Node.value?, if_pos hfits, Int64.ofInt_toInt]
  | double x => rfl
  | bool b => rfl
  | str s => rfl

theorem ty?_name (ty : Ty) : Node.ty? (.str ty.name) = some ty := Ty.ofName?_name ty

theorem ofNode?_toNode_location {loc : Location} (h : loc.fits = true) :
    Location.ofNode? loc.toNode = some loc := by
  rw [Location.fits, Bool.and_eq_true] at h
  simp [Location.ofNode?, Location.toNode, Node.fields?, required, List.lookup, nat?_int h.1,
    nat?_int h.2]

/-! ## Kinds of nodes -/

/-- The kind of an expression. -/
def Expr.kind : Expr → String
  | .literal _ _ => "Literal"
  | .ident _ _ => "Identifier"
  | .binary _ _ _ _ => "BinaryExpression"
  | .unary _ _ _ _ => "UnaryExpression"
  | .assign _ _ _ => "AssignmentExpression"
  | .call _ _ _ => "CallExpression"
  | .member _ _ _ => "MemberExpression"

/-- The symbol of the operator of an expression. -/
def Expr.symbol? : Expr → Option String
  | .binary op _ _ _ => some op.symbol
  | .unary op _ _ _ => some op.symbol
  | _ => none

/-- The kind of a statement. -/
def Stmt.kind : Stmt → String
  | .function _ _ _ _ _ => "FunctionDeclaration"
  | .declare _ => "VariableDeclaration"
  | .block _ _ => "Block"
  | .branch _ _ _ _ => "If"
  | .whileLoop _ _ _ => "While"
  | .doLoop _ _ _ => "DoWhile"
  | .forLoop _ _ _ _ _ => "For"
  | .ret _ _ => "Return"
  | .brk _ => "Break"
  | .cont _ => "Continue"
  | .expr _ _ => "ExpressionStatement"

/-- An expression is a mapping from its kind to its fields, with the operator by its symbol. -/
theorem exists_fields_expr (e : Expr) :
    ∃ fields, e.toNode = .map [(e.kind, .map fields)] ∧
      fields.lookup "op" = e.symbol?.map Node.str := by
  cases e <;> exact ⟨_, rfl, rfl⟩

theorem option?_int {α : Type} (f : Node → Option α) (n : Int) :
    (Node.int n).option? f = (f (.int n)).map some := rfl

/-- Data that is there is read as something that is there. -/
theorem option?_expr {α : Type} (f : Node → Option α) (e : Expr) :
    e.toNode.option? f = (f e.toNode).map some := by
  obtain ⟨fields, he, -⟩ := exists_fields_expr e
  rw [he]
  rfl

theorem toNode_branch (test : Expr) (consequent : Stmt) (alternate : Option Stmt)
    (loc : Location) :
    (Stmt.branch test consequent alternate loc).toNode =
      kindNode "If" ([("test", test.toNode), ("consequent", consequent.toNode)] ++
        present "alternate" Stmt.toNode alternate ++ [("loc", loc.toNode)]) := by
  cases alternate <;> rfl

theorem toNode_forLoop (init : Option Stmt) (test update : Option Expr) (body : Stmt)
    (loc : Location) :
    (Stmt.forLoop init test update body loc).toNode =
      kindNode "For" (present "init" Stmt.toNode init ++ present "test" Expr.toNode test ++
        present "update" Expr.toNode update ++ [("body", body.toNode), ("loc", loc.toNode)]) := by
  cases init <;> rfl

/-- A statement is a mapping from its kind to its fields. -/
theorem exists_fields_stmt (s : Stmt) : ∃ fields, s.toNode = .map [(s.kind, .map fields)] := by
  cases s with
  | branch test consequent alternate loc => exact ⟨_, toNode_branch test consequent alternate loc⟩
  | forLoop init test update body loc => exact ⟨_, toNode_forLoop init test update body loc⟩
  | _ => exact ⟨_, rfl⟩

@[inherit_doc option?_expr]
theorem option?_stmt {α : Type} (f : Node → Option α) (s : Stmt) :
    s.toNode.option? f = (f s.toNode).map some := by
  obtain ⟨fields, hs⟩ := exists_fields_stmt s
  rw [hs]
  rfl

theorem fits_branch (test : Expr) (consequent : Stmt) (alternate : Option Stmt) (loc : Location) :
    (Stmt.branch test consequent alternate loc).fits =
      (test.fits && consequent.fits && alternate.all Stmt.fits && loc.fits) := by
  cases alternate <;> rfl

theorem fits_forLoop (init : Option Stmt) (test update : Option Expr) (body : Stmt)
    (loc : Location) :
    (Stmt.forLoop init test update body loc).fits =
      (init.all Stmt.fits && test.all Expr.fits && update.all Expr.fits && body.fits &&
        loc.fits) := by
  cases init <;> rfl

section Reading

-- reading a record: the kind of a node, its fields, and the texts of names and operators
attribute [local simp] kindNode kindOf? Node.fields? Node.text? Node.bool? required locField
  withDefault List.lookup List.lookup_append lookup_present value?_ofValue ty?_name
  BinaryOp.ofSymbol?_symbol UnaryOp.ofSymbol?_symbol

/-! ## Expressions -/

/-- **An expression is read back**, with fuel for the height of its data. -/
theorem exprOfNode?_toNode {fuel : Nat} {e : Expr} (h : e.fits = true)
    (hfuel : e.toNode.depth ≤ fuel) : exprOfNode? fuel e.toNode = some e := by
  -- the induction is on the fuel: arguments of a call lie in a list inside the tree
  induction fuel generalizing e with
  | zero =>
    obtain ⟨fields, he, -⟩ := exists_fields_expr e
    simp [he, Node.depth] at hfuel
  | succ fuel ih =>
    cases e with
    | literal v loc =>
      simp [exprOfNode?, Expr.toNode, ofNode?_toNode_location h]
    | ident name loc =>
      simp [exprOfNode?, Expr.toNode, ofNode?_toNode_location h]
    | binary op left right loc =>
      simp only [Expr.fits, Bool.and_eq_true] at h
      simp only [Expr.toNode, kindNode, Node.depth, Node.depthFields] at hfuel
      have hleft := ih h.1.1 (by omega)
      have hright := ih h.1.2 (by omega)
      simp [exprOfNode?, Expr.toNode, hleft, hright, ofNode?_toNode_location h.2]
    | unary op argument prefixed loc =>
      simp only [Expr.fits, Bool.and_eq_true] at h
      simp only [Expr.toNode, kindNode, Node.depth, Node.depthFields] at hfuel
      have hargument := ih h.1 (by omega)
      simp [exprOfNode?, Expr.toNode, hargument, ofNode?_toNode_location h.2]
    | assign left right loc =>
      simp only [Expr.fits, Bool.and_eq_true] at h
      simp only [Expr.toNode, kindNode, Node.depth, Node.depthFields] at hfuel
      have hleft := ih h.1.1 (by omega)
      have hright := ih h.1.2 (by omega)
      simp [exprOfNode?, Expr.toNode, hleft, hright, ofNode?_toNode_location h.2]
    | call callee args loc =>
      simp only [Expr.fits, Bool.and_eq_true, exprsFit_eq_all, List.all_eq_true] at h
      simp only [Expr.toNode, kindNode, Node.depth, Node.depthFields, exprsToNodes_eq_map] at hfuel
      have hcallee := ih h.1.1 (by omega)
      have hargs : Node.list? (exprOfNode? fuel) (.seq (args.map Expr.toNode)) = some args := by
        refine list?_map ?_
        intro e he
        have hle := depth_le_depthItems (List.mem_map_of_mem (f := Expr.toNode) he)
        exact ih (h.1.2 e he) (by omega)
      simp [exprOfNode?, Expr.toNode, exprsToNodes_eq_map, hcallee, hargs,
        ofNode?_toNode_location h.2]
    | member base index loc =>
      simp only [Expr.fits, Bool.and_eq_true] at h
      simp only [Expr.toNode, kindNode, Node.depth, Node.depthFields] at hfuel
      have hbase := ih h.1.1 (by omega)
      have hindex := ih h.1.2 (by omega)
      simp [exprOfNode?, Expr.toNode, hbase, hindex, ofNode?_toNode_location h.2]

theorem ofNode?_toNode_expr {e : Expr} (h : e.fits = true) : Expr.ofNode? e.toNode = some e :=
  exprOfNode?_toNode h le_rfl

/-! ## Declarations -/

theorem option?_toNode_expr {e : Expr} (h : e.fits = true) :
    e.toNode.option? Expr.ofNode? = some (some e) := by
  rw [option?_expr, ofNode?_toNode_expr h, Option.map_some]

theorem ofNode?_toNode_declarator {d : Declarator} (h : d.fits = true) :
    Declarator.ofNode? d.toNode = some d := by
  simp only [Declarator.fits, Bool.and_eq_true, Option.all_eq_true] at h
  obtain ⟨⟨hinit, hlength⟩, hloc⟩ := h
  obtain ⟨fields, hfields⟩ : ∃ fields, d.toNode = .map fields := ⟨_, rfl⟩
  have hname : fields.lookup "name" = some (.str d.name) := by
    cases hfields
    simp
  have hplace : fields.lookup "loc" = some d.loc.toNode := by
    cases hfields
    simp
  have hinit : Yaml.optional fields "initializer" Expr.ofNode? = some d.initializer := by
    refine optional_eq_some (g := Expr.toNode) ?_ fun e he => option?_toNode_expr (hinit e he)
    cases hfields
    simp
  have hlength : Yaml.optional fields "length" Node.nat? = some d.length := by
    refine optional_eq_some (g := fun n : Nat => .int n) ?_ fun n hn => ?_
    · cases hfields
      simp
    · rw [option?_int, nat?_int (hlength n hn), Option.map_some]
  simp [Declarator.ofNode?, hfields, hname, hplace, hinit, hlength, ofNode?_toNode_location hloc]

theorem ofFields?_toFields {d : Declaration} (h : d.fits = true) :
    Declaration.ofFields? d.toFields = some d := by
  obtain ⟨ty, isArray, declarators, loc⟩ := d
  simp only [Declaration.fits, Bool.and_eq_true, List.all_eq_true] at h
  have hdeclarators : Node.list? Declarator.ofNode? (.seq (declarators.map Declarator.toNode)) =
      some declarators := list?_map fun d hd => ofNode?_toNode_declarator (h.1 d hd)
  simp [Declaration.ofFields?, Declaration.toFields, hdeclarators, ofNode?_toNode_location h.2]

theorem ofNode?_toFields {d : Declaration} (h : d.fits = true) :
    Declaration.ofNode? (.map d.toFields) = some d :=
  ofFields?_toFields h

/-! ## Statements -/

/-- **A statement is read back**, with fuel for the height of its data. -/
theorem stmtOfNode?_toNode {fuel : Nat} {s : Stmt} (h : s.fits = true)
    (hfuel : s.toNode.depth ≤ fuel) : stmtOfNode? fuel s.toNode = some s := by
  induction fuel generalizing s with
  | zero =>
    obtain ⟨fields, hs⟩ := exists_fields_stmt s
    simp [hs, Node.depth] at hfuel
  | succ fuel ih =>
    -- lists of statements are as high as their highest member, so the fuel is enough for each
    have hbody {body : List Stmt} (h : ∀ s ∈ body, s.fits = true)
        (hle : Node.depthItems (body.map Stmt.toNode) ≤ fuel) :
        Node.list? (stmtOfNode? fuel) (.seq (body.map Stmt.toNode)) = some body := by
      refine list?_map ?_
      intro s hs
      exact ih (h s hs) ((depth_le_depthItems (List.mem_map_of_mem hs)).trans hle)
    cases s with
    | function name parameters body result loc =>
      simp only [Stmt.fits, Bool.and_eq_true, stmtsFit_eq_all, List.all_eq_true] at h
      simp only [Stmt.toNode, kindNode, Node.depth, Node.depthFields, stmtsToNodes_eq_map] at hfuel
      have hparameters : Node.list? Declaration.ofNode?
          (.seq (parameters.map fun d => .map d.toFields)) = some parameters :=
        list?_map fun d hd => ofNode?_toFields (h.1.1 d hd)
      simp [stmtOfNode?, Stmt.toNode, stmtsToNodes_eq_map, hparameters,
        hbody h.1.2 (by omega), ofNode?_toNode_location h.2]
    | declare decl =>
      simp [stmtOfNode?, Stmt.toNode, ofFields?_toFields h]
    | block body loc =>
      simp only [Stmt.fits, Bool.and_eq_true, stmtsFit_eq_all, List.all_eq_true] at h
      simp only [Stmt.toNode, kindNode, Node.depth, Node.depthFields, stmtsToNodes_eq_map] at hfuel
      simp [stmtOfNode?, Stmt.toNode, stmtsToNodes_eq_map, hbody h.1 (by omega),
        ofNode?_toNode_location h.2]
    | branch test consequent alternate loc =>
      rw [fits_branch] at h
      simp only [Bool.and_eq_true, Option.all_eq_true] at h
      obtain ⟨⟨⟨htest, hconsequent⟩, halternate⟩, hloc⟩ := h
      rw [toNode_branch, depth_kindNode] at hfuel
      rw [toNode_branch]
      -- absent fields are left out, so the fields are looked up and not matched
      generalize hfields : [("test", test.toNode), ("consequent", consequent.toNode)] ++
        present "alternate" Stmt.toNode alternate ++ [("loc", loc.toNode)] = fields at hfuel ⊢
      have htested : fields.lookup "test" = some test.toNode := by simp [← hfields]
      have hplace : fields.lookup "loc" = some loc.toNode := by simp [← hfields]
      have htaken : fields.lookup "consequent" = some consequent.toNode := by simp [← hfields]
      have hother : fields.lookup "alternate" = alternate.map Stmt.toNode := by simp [← hfields]
      have hconsequent := ih hconsequent (by have := depth_le_of_lookup htaken; omega)
      have halternate : Yaml.optional fields "alternate" (stmtOfNode? fuel) = some alternate := by
        refine optional_eq_some hother ?_
        rintro s rfl
        have hle := depth_le_of_lookup hother
        rw [option?_stmt, ih (halternate s rfl) (by omega), Option.map_some]
      simp [stmtOfNode?, htested, htaken, hplace, halternate, hconsequent,
        ofNode?_toNode_expr htest, ofNode?_toNode_location hloc]
    | whileLoop test body loc =>
      simp only [Stmt.fits, Bool.and_eq_true] at h
      simp only [Stmt.toNode, kindNode, Node.depth, Node.depthFields] at hfuel
      have hbody := ih h.1.2 (by omega)
      simp [stmtOfNode?, Stmt.toNode, ofNode?_toNode_expr h.1.1, hbody, ofNode?_toNode_location h.2]
    | doLoop body test loc =>
      simp only [Stmt.fits, Bool.and_eq_true] at h
      simp only [Stmt.toNode, kindNode, Node.depth, Node.depthFields] at hfuel
      have hbody := ih h.1.2 (by omega)
      simp [stmtOfNode?, Stmt.toNode, ofNode?_toNode_expr h.1.1, hbody, ofNode?_toNode_location h.2]
    | forLoop init test update body loc =>
      rw [fits_forLoop] at h
      simp only [Bool.and_eq_true, Option.all_eq_true] at h
      obtain ⟨⟨⟨⟨hinit, htest⟩, hupdate⟩, hbody⟩, hloc⟩ := h
      rw [toNode_forLoop, depth_kindNode] at hfuel
      rw [toNode_forLoop]
      generalize hfields : present "init" Stmt.toNode init ++ present "test" Expr.toNode test ++
        present "update" Expr.toNode update ++ [("body", body.toNode), ("loc", loc.toNode)] =
          fields at hfuel ⊢
      have hplace : fields.lookup "loc" = some loc.toNode := by simp [← hfields]
      have hinner : fields.lookup "body" = some body.toNode := by simp [← hfields]
      have hfirst : fields.lookup "init" = init.map Stmt.toNode := by simp [← hfields]
      have hbody := ih hbody (by have := depth_le_of_lookup hinner; omega)
      have hinit : Yaml.optional fields "init" (stmtOfNode? fuel) = some init := by
        refine optional_eq_some hfirst ?_
        rintro s rfl
        have hle := depth_le_of_lookup hfirst
        rw [option?_stmt, ih (hinit s rfl) (by omega), Option.map_some]
      have htest : Yaml.optional fields "test" Expr.ofNode? = some test :=
        optional_eq_some (by simp [← hfields]) fun e he => option?_toNode_expr (htest e he)
      have hupdate : Yaml.optional fields "update" Expr.ofNode? = some update :=
        optional_eq_some (by simp [← hfields]) fun e he => option?_toNode_expr (hupdate e he)
      simp [stmtOfNode?, hinner, hplace, hinit, htest, hupdate, hbody,
        ofNode?_toNode_location hloc]
    | ret argument loc =>
      simp only [Stmt.fits, Bool.and_eq_true, Option.all_eq_true] at h
      have hargument : Yaml.optional (present "argument" Expr.toNode argument ++
          [("loc", loc.toNode)]) "argument" Expr.ofNode? = some argument :=
        optional_eq_some (by simp) fun e he => option?_toNode_expr (h.1 e he)
      simp [stmtOfNode?, Stmt.toNode, hargument, ofNode?_toNode_location h.2]
    | brk loc =>
      simp [stmtOfNode?, Stmt.toNode, ofNode?_toNode_location h]
    | cont loc =>
      simp [stmtOfNode?, Stmt.toNode, ofNode?_toNode_location h]
    | expr e loc =>
      simp only [Stmt.fits, Bool.and_eq_true] at h
      simp [stmtOfNode?, Stmt.toNode, ofNode?_toNode_expr h.1, ofNode?_toNode_location h.2]

/-- **A program is read back from its data.** -/
theorem ofNode?_toNode_program {p : Program} (h : p.fits = true) :
    Program.ofNode? p.toNode = some p := by
  rw [Program.fits, stmtsFit_eq_all, List.all_eq_true] at h
  have hstatements : Node.list? Stmt.ofNode? (.seq (p.statements.map Stmt.toNode)) =
      some p.statements := list?_map fun s hs => stmtOfNode?_toNode (h s hs) le_rfl
  simp [Program.ofNode?, Program.toNode, stmtsToNodes_eq_map, hstatements]

/-! ## Images -/

theorem option?_ofOption {α : Type} {f : Node → Option α} {g : α → Node} {o : Option α}
    (h : ∀ a ∈ o, (g a).option? f = some (some a)) : (Node.ofOption g o).option? f = some o := by
  cases o with
  | none => rfl
  | some a => exact h a rfl

theorem ofNode?_toNode_reg (r : Reg) : Reg.ofNode? r.toNode = some r := Reg.ofName?_name r

theorem option?_indexNode (index : Option Reg) :
    (indexNode index).option? Reg.ofNode? = some index := by
  refine option?_ofOption ?_
  intro r _
  show (Reg.ofNode? r.toNode).map some = _
  rw [ofNode?_toNode_reg, Option.map_some]

theorem ofName?_name_base (base : Base) : Base.ofName? base.name = some base := by
  cases base <;> rfl

theorem ofNode?_toNode_operand {o : Operand} (h : o.fits = true) :
    Operand.ofNode? o.toNode = some o := by
  cases o with
  | imm v => simp [Operand.ofNode?, Operand.toNode]
  | reg r => simp [Operand.ofNode?, Operand.toNode, ofNode?_toNode_reg]
  | ptr p =>
    simp [Operand.ofNode?, Operand.toNode, Yaml.optional, ofName?_name_base, int?_int h,
      option?_indexNode]
  | host name => simp [Operand.ofNode?, Operand.toNode]
  | var key index => simp [Operand.ofNode?, Operand.toNode, Yaml.optional, option?_indexNode]
  | label name => simp [Operand.ofNode?, Operand.toNode]

theorem option?_toNode_operand {o : Operand} (h : o.fits = true) :
    o.toNode.option? Operand.ofNode? = some (some o) := by
  have hread : o.toNode.option? Operand.ofNode? = (Operand.ofNode? o.toNode).map some := by
    cases o <;> rfl
  rw [hread, ofNode?_toNode_operand h, Option.map_some]

/-- **An instruction is read back**, with operands that are pending, its remark and its origin. -/
theorem ofNode?_toNode_instr {i : Instr} (h : i.fits = true) :
    Instr.ofNode? i.toNode = some i := by
  simp only [Instr.fits, Bool.and_eq_true, Option.all_eq_true] at h
  obtain ⟨⟨hdest, hsrc⟩, horigin⟩ := h
  -- the fields are kept opaque: each is only looked up
  obtain ⟨fields, hfields⟩ : ∃ fields, i.toNode = .map fields := ⟨_, rfl⟩
  have hop : fields.lookup "op" = some (.str i.op.name) := by
    cases hfields
    simp
  have hdest : Yaml.optional fields "dest" Operand.ofNode? = some i.dest := by
    have hlookup : fields.lookup "dest" = some (.ofOption Operand.toNode i.dest) := by
      cases hfields
      simp
    rw [Yaml.optional, hlookup]
    exact option?_ofOption fun o ho => option?_toNode_operand (hdest o ho)
  have hsrc : Yaml.optional fields "src" Operand.ofNode? = some i.src := by
    have hlookup : fields.lookup "src" = some (.ofOption Operand.toNode i.src) := by
      cases hfields
      simp
    rw [Yaml.optional, hlookup]
    exact option?_ofOption fun o ho => option?_toNode_operand (hsrc o ho)
  have hcomment : Yaml.optional fields "comment" Node.text? = some i.comment := by
    refine optional_eq_some (g := fun s : String => .str s) ?_ fun s _ => rfl
    cases hfields
    simp
  have horigin : Yaml.optional fields "origin" Location.ofNode? = some i.origin := by
    refine optional_eq_some (g := Location.toNode) ?_ fun loc hloc => ?_
    · cases hfields
      simp
    · show (Location.ofNode? loc.toNode).map some = _
      rw [ofNode?_toNode_location (horigin loc hloc), Option.map_some]
  simp [Instr.ofNode?, hfields, hop, OpCode.ofName?_name, hdest, hsrc, hcomment, horigin]

theorem optional_lengthFields (fields : Fields) {length : Option Nat}
    (hfields : fields.lookup "length" = none) (h : ∀ n ∈ length, fitsNat n = true) :
    Yaml.optional (fields ++ lengthFields length) "length" Node.nat? = some length := by
  refine optional_eq_some (g := fun n : Nat => .int n) ?_ fun n hn => ?_
  · simp [lengthFields, hfields]
  · rw [option?_int, nat?_int (h n hn), Option.map_some]

theorem ofNode?_toNode_frameEntry {e : FrameEntry} (h : e.fits = true) :
    FrameEntry.ofNode? e.toNode = some e := by
  simp only [FrameEntry.fits, Bool.and_eq_true, Option.all_eq_true] at h
  have hlength := optional_lengthFields [("offset", .int e.offset), ("ty", .str e.ty.name)] rfl h.2
  rw [FrameEntry.toNode]
  generalize hfields : [("offset", Node.int e.offset), ("ty", .str e.ty.name)] ++
    lengthFields e.length = fields at hlength ⊢
  have hoffset : fields.lookup "offset" = some (.int e.offset) := by simp [← hfields]
  have hty : fields.lookup "ty" = some (.str e.ty.name) := by simp [← hfields]
  simp [FrameEntry.ofNode?, hoffset, hty, hlength, int?_int h.1]

theorem ofNode?_toNode_dataEntry {e : DataEntry} (h : e.fits = true) :
    DataEntry.ofNode? e.toNode = some e := by
  simp only [DataEntry.fits, Bool.and_eq_true, Option.all_eq_true] at h
  have hlength := optional_lengthFields [("offset", .int e.offset), ("ty", .str e.ty.name)] rfl h.2
  rw [DataEntry.toNode]
  generalize hfields : [("offset", Node.int e.offset), ("ty", .str e.ty.name)] ++
    lengthFields e.length = fields at hlength ⊢
  have hoffset : fields.lookup "offset" = some (.int e.offset) := by simp [← hfields]
  have hty : fields.lookup "ty" = some (.str e.ty.name) := by simp [← hfields]
  simp [DataEntry.ofNode?, hoffset, hty, hlength, nat?_int h.1]

/-- **A table is read back**, with its names in their order. -/
theorem ofNode?_toNode_table {α : Type} {f : Node → Option α} {g : α → Node} {t : Table α}
    (h : ∀ e ∈ t.entries, f (g e.2) = some e.2) : Table.ofNode? f (t.toNode g) = some t := by
  have hentries : ∀ es : List (String × α), (∀ e ∈ es, f (g e.2) = some e.2) →
      (es.map fun e => (e.1, g e.2)).mapM (fun e => (f e.2).map (e.1, ·)) = some es := by
    intro es hes
    induction es with
    | nil => rfl
    | cons e es ih =>
      rw [List.forall_mem_cons] at hes
      rw [List.map_cons, List.mapM_cons, hes.1, ih hes.2]
      rfl
  have htable : Table.ofList t.entries = t := by
    have heq := Table.entries_ofList t.nodup
    cases t
    generalize hr : Table.ofList _ = r at heq ⊢
    cases r
    cases heq
    rfl
  show ((t.entries.map fun e => (e.1, g e.2)).mapM fun e => (f e.2).map (e.1, ·)).bind
    (fun entries => some (Table.ofList entries)) = some t
  rw [hentries _ h, Option.bind_some, htable]

theorem ofNode?_toNode_codeEntry {e : CodeEntry} (h : e.fits = true) :
    CodeEntry.ofNode? e.toNode = some e := by
  simp only [CodeEntry.fits, Bool.and_eq_true, List.all_eq_true] at h
  have hframe : Table.ofNode? FrameEntry.ofNode? (e.frame.toNode FrameEntry.toNode) =
      some e.frame := ofNode?_toNode_table fun x hx => ofNode?_toNode_frameEntry (h.2 x hx)
  simp [CodeEntry.ofNode?, CodeEntry.toNode, nat?_int h.1.1, nat?_int h.1.2, hframe]

/-- **An image is read back from its data.** -/
theorem ofNode?_toNode_image {i : Image} (h : i.fits = true) :
    Image.ofNode? i.toNode = some i := by
  simp only [Image.fits, Bool.and_eq_true, List.all_eq_true] at h
  obtain ⟨⟨hcode, hfunctions⟩, hdata⟩ := h
  have hcode : Node.list? Instr.ofNode? (.seq (i.code.toList.map Instr.toNode)) =
      some i.code.toList := list?_map fun instr hi => ofNode?_toNode_instr (hcode instr hi)
  have hglobals : Node.list? Node.value? (.seq (i.globals.toList.map Node.ofValue)) =
      some i.globals.toList := list?_map fun v _ => value?_ofValue v
  have hfunctions : Table.ofNode? CodeEntry.ofNode? (i.symbols.code.toNode CodeEntry.toNode) =
      some i.symbols.code :=
    ofNode?_toNode_table fun e he => ofNode?_toNode_codeEntry (hfunctions e he)
  have hdata : Table.ofNode? DataEntry.ofNode? (i.symbols.data.toNode DataEntry.toNode) =
      some i.symbols.data :=
    ofNode?_toNode_table fun e he => ofNode?_toNode_dataEntry (hdata e he)
  simp [Image.ofNode?, Image.toNode, Symbols.ofNode?, Symbols.toNode, hcode, hglobals, hfunctions,
    hdata]

end Reading

/-! ## What is absent is not written -/

mutual

/-- Whether nothing at all stands somewhere in the data. -/
def Yaml.Node.hasNull : Node → Bool
  | .null => true
  | .seq items => itemsHaveNull items
  | .map fields => fieldsHaveNull fields
  | .tagged _ node => node.hasNull
  | _ => false

/-- Whether nothing at all stands somewhere in the data of a sequence. -/
def Yaml.Node.itemsHaveNull : List Node → Bool
  | [] => false
  | node :: rest => node.hasNull || itemsHaveNull rest

/-- Whether nothing at all stands somewhere in the data of a mapping. -/
def Yaml.Node.fieldsHaveNull : Fields → Bool
  | [] => false
  | (_, node) :: rest => node.hasNull || fieldsHaveNull rest

end

section Absent

theorem itemsHaveNull_map {α : Type} {g : α → Node} {xs : List α}
    (h : ∀ x ∈ xs, (g x).hasNull = false) : Node.itemsHaveNull (xs.map g) = false := by
  induction xs with
  | nil => rfl
  | cons x xs ih =>
    rw [List.forall_mem_cons] at h
    rw [List.map_cons, Node.itemsHaveNull, h.1, ih h.2, Bool.or_false]

theorem fieldsHaveNull_append (as bs : Fields) :
    Node.fieldsHaveNull (as ++ bs) = (Node.fieldsHaveNull as || Node.fieldsHaveNull bs) := by
  induction as with
  | nil => rfl
  | cons a as ih =>
    rw [List.cons_append, Node.fieldsHaveNull, ih, Node.fieldsHaveNull, Bool.or_assoc]

theorem fieldsHaveNull_present {α : Type} {key : String} {g : α → Node} {o : Option α}
    (h : ∀ a ∈ o, (g a).hasNull = false) : Node.fieldsHaveNull (present key g o) = false := by
  cases o with
  | none => rfl
  | some a => simp [present, Node.fieldsHaveNull, h a rfl]

theorem hasNull_toNode_location (loc : Location) : loc.toNode.hasNull = false := rfl

theorem hasNull_ofValue (v : Value) : (Node.ofValue v).hasNull = false := by
  cases v <;> rfl

attribute [local simp] kindNode Node.hasNull Node.itemsHaveNull Node.fieldsHaveNull
  fieldsHaveNull_append hasNull_toNode_location hasNull_ofValue

mutual

theorem hasNull_toNode_expr : (e : Expr) → e.toNode.hasNull = false
  | .literal _ _ => by simp [Expr.toNode]
  | .ident _ _ => by simp [Expr.toNode]
  | .binary _ left right _ => by
    simp [Expr.toNode, hasNull_toNode_expr left, hasNull_toNode_expr right]
  | .unary _ argument _ _ => by simp [Expr.toNode, hasNull_toNode_expr argument]
  | .assign left right _ => by
    simp [Expr.toNode, hasNull_toNode_expr left, hasNull_toNode_expr right]
  | .call callee args _ => by
    simp [Expr.toNode, hasNull_toNode_expr callee, itemsHaveNull_exprs args]
  | .member base index _ => by
    simp [Expr.toNode, hasNull_toNode_expr base, hasNull_toNode_expr index]

theorem itemsHaveNull_exprs : (es : List Expr) → Node.itemsHaveNull (exprsToNodes es) = false
  | [] => rfl
  | e :: rest => by simp [exprsToNodes, hasNull_toNode_expr e, itemsHaveNull_exprs rest]

end

theorem fieldsHaveNull_presentExpr (key : String) (o : Option Expr) :
    Node.fieldsHaveNull (present key Expr.toNode o) = false :=
  fieldsHaveNull_present fun e _ => hasNull_toNode_expr e

theorem fieldsHaveNull_toFields (d : Declaration) : Node.fieldsHaveNull d.toFields = false := by
  have hdeclarators : Node.itemsHaveNull (d.declarators.map Declarator.toNode) = false := by
    refine itemsHaveNull_map ?_
    intro d _
    have hlength : Node.fieldsHaveNull (present "length" (fun n : Nat => .int n) d.length) =
        false := fieldsHaveNull_present fun n _ => rfl
    simp [Declarator.toNode, fieldsHaveNull_presentExpr, hlength]
  simp [Declaration.toFields, hdeclarators]

mutual

theorem hasNull_toNode_stmt : (s : Stmt) → s.toNode.hasNull = false
  | .function _ parameters body _ _ => by
    have hparameters : Node.itemsHaveNull (parameters.map fun d => .map d.toFields) = false :=
      itemsHaveNull_map fun d _ => fieldsHaveNull_toFields d
    simp [Stmt.toNode, hparameters, itemsHaveNull_stmts body]
  | .declare decl => by simp [Stmt.toNode, fieldsHaveNull_toFields decl]
  | .block body _ => by simp [Stmt.toNode, itemsHaveNull_stmts body]
  | .branch test consequent none _ => by
    simp [Stmt.toNode, hasNull_toNode_expr test, hasNull_toNode_stmt consequent]
  | .branch test consequent (some alternate) _ => by
    simp [Stmt.toNode, hasNull_toNode_expr test, hasNull_toNode_stmt consequent,
      hasNull_toNode_stmt alternate]
  | .whileLoop test body _ => by
    simp [Stmt.toNode, hasNull_toNode_expr test, hasNull_toNode_stmt body]
  | .doLoop body test _ => by
    simp [Stmt.toNode, hasNull_toNode_expr test, hasNull_toNode_stmt body]
  | .forLoop none _ _ body _ => by
    simp [Stmt.toNode, fieldsHaveNull_presentExpr, hasNull_toNode_stmt body]
  | .forLoop (some init) _ _ body _ => by
    simp [Stmt.toNode, fieldsHaveNull_presentExpr, hasNull_toNode_stmt init,
      hasNull_toNode_stmt body]
  | .ret _ _ => by simp [Stmt.toNode, fieldsHaveNull_presentExpr]
  | .brk _ => by simp [Stmt.toNode]
  | .cont _ => by simp [Stmt.toNode]
  | .expr e _ => by simp [Stmt.toNode, hasNull_toNode_expr e]

theorem itemsHaveNull_stmts : (ss : List Stmt) → Node.itemsHaveNull (stmtsToNodes ss) = false
  | [] => rfl
  | s :: rest => by simp [stmtsToNodes, hasNull_toNode_stmt s, itemsHaveNull_stmts rest]

end

/-- **What is absent in a program is left out of its data.** -/
theorem hasNull_toNode_program (p : Program) : p.toNode.hasNull = false := by
  simp [Program.toNode, itemsHaveNull_stmts]

end Absent

/-! ## Files -/

/-- The text of the data is read back as this data. -/
def Yaml.Node.Stable (node : Node) : Prop := parse? node.render = some node

mutual

/-- Whether two trees without floats are equal. -/
def Yaml.Node.same : Node → Node → Bool
  | .null, .null => true
  | .bool a, .bool b => a == b
  | .int a, .int b => a == b
  | .str a, .str b => a == b
  | .seq as, .seq bs => sameItems as bs
  | .map as, .map bs => sameFields as bs
  | .tagged t a, .tagged u b => t == u && a.same b
  | _, _ => false

/-- Whether two sequences without floats are equal. -/
def Yaml.Node.sameItems : List Node → List Node → Bool
  | [], [] => true
  | a :: as, b :: bs => a.same b && sameItems as bs
  | _, _ => false

/-- Whether two mappings without floats are equal. -/
def Yaml.Node.sameFields : Fields → Fields → Bool
  | [], [] => true
  | (k, a) :: as, (l, b) :: bs => k == l && a.same b && sameFields as bs
  | _, _ => false

end

mutual

theorem eq_of_same : (a b : Node) → a.same b = true → a = b
  | .null, b, h => by cases b <;> simp_all [Node.same]
  | .bool _, b, h => by cases b <;> simp_all [Node.same]
  | .int _, b, h => by cases b <;> simp_all [Node.same]
  | .float _, b, h => by cases b <;> simp_all [Node.same]
  | .str _, b, h => by cases b <;> simp_all [Node.same]
  | .seq as, b, h => by
    cases b with
    | seq bs => rw [eq_of_sameItems as bs h]
    | _ => simp [Node.same] at h
  | .map as, b, h => by
    cases b with
    | map bs => rw [eq_of_sameFields as bs h]
    | _ => simp [Node.same] at h
  | .tagged t a, b, h => by
    cases b with
    | tagged u b =>
      simp only [Node.same, Bool.and_eq_true, beq_iff_eq] at h
      rw [h.1, eq_of_same a b h.2]
    | _ => simp [Node.same] at h

theorem eq_of_sameItems : (as bs : List Node) → Node.sameItems as bs = true → as = bs
  | [], bs, h => by cases bs <;> simp_all [Node.sameItems]
  | a :: as, bs, h => by
    rcases bs with _ | ⟨b, bs⟩
    · simp [Node.sameItems] at h
    · rw [Node.sameItems, Bool.and_eq_true] at h
      rw [eq_of_same a b h.1, eq_of_sameItems as bs h.2]

theorem eq_of_sameFields : (as bs : Fields) → Node.sameFields as bs = true → as = bs
  | [], bs, h => by cases bs <;> simp_all [Node.sameFields]
  | (k, a) :: as, bs, h => by
    rcases bs with _ | ⟨⟨l, b⟩, bs⟩
    · simp [Node.sameFields] at h
    · simp only [Node.sameFields, Bool.and_eq_true, beq_iff_eq] at h
      rw [h.1.1, eq_of_same a b h.1.2, eq_of_sameFields as bs h.2]

end

theorem stable_of_same {node : Node} (h : (parse? node.render).any (·.same node) = true) :
    node.Stable := by
  rw [Option.any_eq_true] at h
  obtain ⟨read, hread, hsame⟩ := h
  rw [Node.Stable, hread, eq_of_same read node hsame]

/-- A program with absent parts. -/
def sampleProgram : Program := ⟨[.forLoop none none none (.brk ⟨1, 9⟩) ⟨1, 5⟩]⟩

/-- An image with a pending operand, a remark and an origin. -/
def sampleImage : Image where
  code := #[⟨.rjmp, some (.label "end"), none, some "if: no", some ⟨3, 4⟩⟩]
  globals := #[.int (-7)]
  symbols := .empty

end Stepwise
