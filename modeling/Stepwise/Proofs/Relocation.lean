import Mathlib
import Stepwise.Proofs.ProgramCorrespondence
import Stepwise.Proofs.SymbolMap

/-!
# Places of the program in its code

An instruction remembers the place of the program that it was generated from, and a mistake the
place where it was found. Both come from the tree alone, and nothing else does: a program with its
places moved compiles to the same image with the places moved, or fails with the same error at the
moved place. In an image, the instructions of functions have a place and the first instructions have
none.

## Main definitions

* `Image.relocate`, `relocateOutcome`: an image and an outcome with the places moved
* `Progress.Relocated`: declarations that were compiled with their places moved

## Main results

* `agree_translate`: the declarations of a program
* `link_of_relocated`: linking
* `compile_relocate`: the whole compiler
-/

namespace Stepwise

/-- The instruction with its place moved. -/
def Instr.relocate (φ : Location → Location) (i : Instr) : Instr :=
  { i with origin := i.origin.map φ }

/-- The line with its place moved. -/
def Line.relocate (φ : Location → Location) : Line → Line
  | .instr i => .instr (i.relocate φ)
  | .label name => .label name

/-- The code with all places moved. -/
def Code.relocate (φ : Location → Location) (code : Code) : Code := code.map (Line.relocate φ)

/-- The image with all places moved. -/
def Image.relocate (φ : Location → Location) (image : Image) : Image :=
  { image with code := image.code.map (Instr.relocate φ) }

/-- The outcome of a compilation with all places moved. -/
def relocateOutcome (φ : Location → Location) :
    Except CompileError Image → Except CompileError Image
  | .ok image => .ok (image.relocate φ)
  | .error e => .error (e.relocate φ)

variable {φ : Location → Location}

/-! ## Code that corresponds over one region -/

section OneRegion

variable {D : Anchors} {J : String → Prop} {g : GlobalLayout}

/-- A region has one scratch cell for a type. -/
theorem Operand.Twin.eq {o o' : Operand} (h : o.Twin D ⟨g, g⟩ o') : o' = o := by
  cases h with
  | same _ => rfl
  | cell hl hr =>
    cases hl.symm.trans hr
    rfl

theorem Instr.Twin.eq_relocate {i i' : Instr} (h : i.Twin φ D ⟨g, g⟩ i') : i' = i.relocate φ := by
  have hrel {o o' : Option Operand} (ho : Option.Rel (Operand.Twin D ⟨g, g⟩) o o') : o' = o := by
    cases ho with
    | none => rfl
    | some ho => rw [ho.eq]
  obtain ⟨op', dest', src', comment', origin'⟩ := i'
  rw [Instr.relocate, Instr.mk.injEq]
  refine ⟨h.op, ?_, hrel h.src, h.comment, h.origin⟩
  rcases h.dest with hdest | ⟨l, hl, hl', -⟩
  · exact hrel hdest
  · rw [hl]
    exact hl'

theorem Code.Twin.eq_relocate {c c' : Code} (h : c.Twin φ D J ⟨g, g⟩ c') :
    c' = c.relocate φ := by
  have hlines := h.lines
  clear h
  induction hlines with
  | nil => rfl
  | cons hline _ ih =>
    rw [ih]
    cases hline with
    | instr hi => rw [hi.eq_relocate]; rfl
    | label name => rfl

theorem Regions.Grows.left_eq_right {W : Regions} (h : Regions.Grows ⟨g, g⟩ W) :
    W = ⟨W.left, W.left⟩ := by
  obtain ⟨tys, rfl⟩ := h
  rfl

end OneRegion

namespace Compiler

open Lowering

/-! ## Declarations -/

/-- The compiled function with all places moved. -/
def relocateFunction (φ : Location → Location) (f : CompiledFunction) : CompiledFunction :=
  { f with code := f.code.relocate φ }

/-- Declarations that were compiled with their places moved. -/
structure Progress.Relocated (φ : Location → Location) (p p' : Progress) : Prop where
  scope : p.scope.Same .all p'.scope
  globals : p'.globals = p.globals
  functions : p'.functions = p.functions.map (relocateFunction φ)
  sourced : ∀ f ∈ p.functions, f.code.Sourced

/-- One more declaration keeps the correspondence. -/
theorem agree_compileStmt {p p' : Progress} (h : p.Relocated φ p') (s : Stmt) :
    AgreeOver (fun _ => True) φ (Progress.Relocated φ) (compileStmt p s)
      (compileStmt p' (s.relocate φ)) := by
  cases s with
  | declare decl =>
    refine (agree_declare (P := fun g g' => g' = g) ?_ ?_ (fun _ => trivial) h.scope h.globals
      decl).widen.bind ?_
    · rintro g _ rfl
      rfl
    · rintro g _ name ty length values rfl
      rfl
    · rintro ⟨g, scope⟩ ⟨_, scope'⟩ ⟨rfl, hs⟩
      exact .ok ⟨hs, rfl, h.functions, h.sourced⟩
  | function name parameters body ret loc =>
    refine AgreeOver.bind (R := fun r r' => ∃ W : Regions, Regions.Grows ⟨p.globals, p.globals⟩ W ∧
      r.1.Twin φ .all W r'.1 ∧ r.2 = W.left ∧ r'.2 = W.right) ?_ ?_
    · rw [h.globals]
      exact agree_compileFunction (W := ⟨p.globals, p.globals⟩) h.scope
        ⟨name, parameters, body, ret, loc⟩
    · rintro ⟨f, _⟩ ⟨f', _⟩ ⟨W, hW, hf, rfl, rfl⟩
      rw [hW.left_eq_right] at hf
      -- twin code in equal regions differs in its places only
      have hf' : f' = relocateFunction φ f := by
        obtain ⟨n, r, c, fr⟩ := f'
        obtain ⟨rfl, rfl, rfl, hc, -⟩ := hf
        rw [relocateFunction, ← hc.eq_relocate]
      refine .ok ⟨h.scope, congrArg Regions.right hW.left_eq_right, ?_, ?_⟩
      · simp only [h.functions, hf', List.map_append, List.map_singleton]
      · intro e he
        rcases List.mem_append.mp he with he | he
        · exact h.sourced e he
        · obtain rfl := List.mem_singleton.mp he
          exact hf.sourced
  | _ => exact (agree_at rfl _).widen

/-- **The declarations of a program compile in step with those at the moved places.** -/
theorem agree_translate (hosts : List HostDecl) (program : Program) :
    AgreeOver (fun _ => True) φ (Progress.Relocated φ) (translate hosts program)
      (translate hosts (program.relocate φ)) := by
  have hfold (stmts : List Stmt) {p p' : Progress} (h : p.Relocated φ p') :
      AgreeOver (fun _ => True) φ (Progress.Relocated φ) (stmts.foldlM compileStmt p)
        ((stmts.map (Stmt.relocate φ)).foldlM compileStmt p') := by
    induction stmts generalizing p p' with
    | nil => exact .ok h
    | cons s rest ih =>
      rw [List.map_cons, List.foldlM_cons, List.foldlM_cons]
      exact (agree_compileStmt h s).bind fun q q' hq => ih hq
  obtain ⟨scope, hscope⟩ := declareHosts_eq_ok hosts
  unfold translate signatures
  rw [hscope]
  refine (agree_declareFunctions (fun _ => trivial) (.refl scope) program.statements).widen.bind ?_
  intro s s' hs
  exact hfold program.statements ⟨hs, rfl, rfl, fun _ hf => by cases hf⟩

/-! ## Linking -/

theorem instrs_relocate (code : Code) :
    (code.relocate φ).instrs = code.instrs.map (Instr.relocate φ) := by
  induction code with
  | nil => rfl
  | cons line rest ih =>
    cases line with
    | label name => exact ih
    | instr i => exact congrArg (i.relocate φ :: ·) ih

theorem size_relocate (code : Code) : (code.relocate φ).size = code.size := by
  rw [Code.size, instrs_relocate, List.length_map, Code.size]

theorem collectLabels_relocate (addr : Nat) (labels : Table Nat) (code : Code) :
    collectLabels addr labels (code.relocate φ) = collectLabels addr labels code := by
  induction code generalizing addr labels with
  | nil => rfl
  | cons line rest ih =>
    cases line with
    | instr i => exact ih (addr + 1) labels
    | label name =>
      change (if labels.contains name then _ else _) = if labels.contains name then _ else _
      split
      · rfl
      · exact ih addr _

theorem linkFrom_relocate (labels : Table Nat) (pc : Nat) (is : List Instr) :
    linkFrom labels pc (is.map (Instr.relocate φ)) =
      (List.map (Instr.relocate φ)) <$> linkFrom labels pc is := by
  induction is generalizing pc with
  | nil => rfl
  | cons i rest ih =>
    rw [List.map_cons, linkFrom, linkFrom, ih]
    cases hdest : i.dest.mapM (linkOperand labels i.op pc) with
    | error e => simp [Instr.mapOperands, Instr.relocate, hdest, bind, Except.bind, Functor.map,
        Except.map]
    | ok dest =>
      cases hsrc : i.src.mapM (linkOperand labels i.op pc) with
      | error e => simp [Instr.mapOperands, Instr.relocate, hdest, hsrc, bind, Except.bind,
          Functor.map, Except.map]
      | ok src =>
        cases hrest : linkFrom labels (pc + 1) rest with
        | error e => simp [Instr.mapOperands, Instr.relocate, hdest, hsrc, bind, Except.bind,
            Functor.map, Except.map, pure, Except.pure]
        | ok done => simp [Instr.mapOperands, Instr.relocate, hdest, hsrc, bind, Except.bind,
            Functor.map, Except.map, pure, Except.pure]

theorem assemble_relocate (code : Code) :
    assemble (code.relocate φ) = List.map (Instr.relocate φ) <$> assemble code := by
  unfold assemble labelAddresses
  rw [collectLabels_relocate, instrs_relocate]
  cases collectLabels 0 .empty code with
  | error e => rfl
  | ok labels => exact linkFrom_relocate labels 0 code.instrs

theorem checkResolvedFrom_relocate (addr : Nat) (is : List Instr) :
    checkResolvedFrom addr (is.map (Instr.relocate φ)) = checkResolvedFrom addr is := by
  induction is generalizing addr with
  | nil => rfl
  | cons i rest ih =>
    rw [List.map_cons, checkResolvedFrom, checkResolvedFrom, ih]
    rfl

theorem codeEntries_relocate (addr : Nat) (fs : List CompiledFunction) :
    codeEntries addr (fs.map (relocateFunction φ)) = codeEntries addr fs := by
  induction fs generalizing addr with
  | nil => rfl
  | cons f rest ih =>
    have hsize : (relocateFunction φ f).code.size = f.code.size := size_relocate f.code
    rw [List.map_cons, codeEntries, codeEntries, hsize, ih]
    rfl

theorem stub_of_same {D : Anchors} {scope scope' : Scope} (h : scope.Same D scope') :
    stub scope' = stub scope := by
  obtain - | ⟨hinner, -⟩ := h
  unfold stub hasMain Scope.get?
  rw [(hinner "main").1]

/-- The first instructions have no places. -/
theorem relocate_stub (scope : Scope) : (stub scope).relocate φ = stub scope := by
  unfold stub
  split <;> rfl

theorem programCode_of_relocated {p p' : Progress} (h : p.Relocated φ p') :
    programCode p' = (programCode p).relocate φ := by
  have hcode : (p.functions.map (relocateFunction φ)).flatMap (·.code) =
      Code.relocate φ (p.functions.flatMap (·.code)) := by
    rw [List.flatMap_map, Code.relocate, List.map_flatMap]
    rfl
  have happend (a b : Code) : Code.relocate φ (a ++ b) = a.relocate φ ++ b.relocate φ :=
    List.map_append
  rw [programCode, programCode, stub_of_same h.scope, h.functions, hcode, happend, happend,
    relocate_stub]
  rfl

/-- **Linking moves the places and changes nothing else.** -/
theorem link_of_relocated {p p' : Progress} (h : p.Relocated φ p') :
    link p' = Image.relocate φ <$> link p := by
  have hlink (q : Progress) : link q = assemble (programCode q) >>= fun instrs =>
      checkResolved instrs >>= fun _ => .ok ⟨instrs.toArray, q.globals.values,
        ⟨.ofList (codeEntries (stub q.scope).size q.functions), q.globals.entries⟩⟩ := rfl
  rw [hlink, hlink, programCode_of_relocated h, assemble_relocate, stub_of_same h.scope,
    h.functions, codeEntries_relocate, h.globals]
  cases assemble (programCode p) with
  | error e => rfl
  | ok instrs =>
    change (checkResolved (instrs.map (Instr.relocate φ)) >>= _) = _
    rw [checkResolved, checkResolvedFrom_relocate, ← checkResolved]
    cases hcheck : checkResolved instrs with
    | error e => simp [hcheck, bind, Except.bind, Functor.map, Except.map]
    | ok u => simp [hcheck, bind, Except.bind, Functor.map, Except.map, Image.relocate]

/-! ## Which instructions have a place -/

theorem origins_of_linkFrom {labels : Table Nat} {pc : Nat} {is js : List Instr}
    (h : linkFrom labels pc is = .ok js) : js.map Instr.origin = is.map Instr.origin := by
  induction is generalizing pc js with
  | nil =>
    cases h
    rfl
  | cons i rest ih =>
    simp only [linkFrom, Instr.mapOperands, bind_eq_ok, pure_eq_ok] at h
    obtain ⟨_, ⟨dest, -, src, -, rfl⟩, done, hdone, rfl⟩ := h
    rw [List.map_cons, List.map_cons, ih hdone]

/-- The first instructions have no places, and all others have one. -/
theorem origins_programCode {p : Progress} (h : ∀ f ∈ p.functions, f.code.Sourced) {pc : Nat}
    {i : Instr} (hi : (programCode p).instrs[pc]? = some i) :
    if pc < (stub p.scope).size then i.origin = none else i.origin.isSome = true := by
  have hinstrs : (programCode p).instrs =
      (stub p.scope).instrs ++ (Code.instrs (p.functions.flatMap (·.code)) ++ []) := by
    simp only [programCode, Code.instrs, List.filterMap_append, List.append_assoc]
    rfl
  rw [hinstrs, List.append_nil, List.getElem?_append] at hi
  split
  next hpc =>
    rw [if_pos (show pc < (stub p.scope).instrs.length from hpc)] at hi
    have hmem := List.mem_of_getElem? hi
    unfold stub at hmem
    split at hmem
    · fin_cases hmem <;> rfl
    · fin_cases hmem
      rfl
  next hpc =>
    rw [if_neg (show ¬ pc < (stub p.scope).instrs.length from hpc)] at hi
    obtain ⟨line, hline, hi⟩ := List.mem_filterMap.mp (List.mem_of_getElem? hi)
    obtain ⟨f, hf, hline⟩ := List.mem_flatMap.mp hline
    exact h f hf i (List.mem_filterMap.mpr ⟨line, hline, hi⟩)

end Compiler

/-- The instructions of functions have a place in the program, and those before the functions have
none. -/
structure Image.Sourced (image : Image) : Prop where
  stub : ∀ pc < image.stubSize, ∃ i : Instr, image.code[pc]? = some i ∧ i.origin = none
  function : ∀ name e, image.symbols.code.get? name = some e → ∀ pc, e.covers pc = true →
    ∃ i : Instr, image.code[pc]? = some i ∧ i.origin.isSome = true

theorem Compiler.sourced_of_compile {hosts : List HostDecl} {program : Program} {image : Image}
    (h : compile hosts program = .ok image) : image.Sourced := by
  obtain ⟨c, hc⟩ := exists_compilation h
  obtain ⟨_, -, hrelocated⟩ := (agree_translate (φ := id) hosts program).exists_of_ok hc
  -- an instruction of the image comes from the one at its address in the generated code
  have horigin {pc : Nat} (hpc : pc < image.code.size) : ∃ i : Instr, image.code[pc]? = some i ∧
      if pc < image.stubSize then i.origin = none else i.origin.isSome = true := by
    have horigins := origins_of_linkFrom c.linked
    have hi : image.code[pc]? = some image.code[pc] := Array.getElem?_eq_getElem hpc
    have hj : ((programCode c.progress).instrs.map Instr.origin)[pc]? =
        some image.code[pc].origin := by
      rw [← horigins, List.getElem?_map, Array.getElem?_toList, hi]
      rfl
    rw [List.getElem?_map, Option.map_eq_some_iff] at hj
    obtain ⟨j, hj, hsame⟩ := hj
    refine ⟨_, hi, ?_⟩
    rw [← hsame, ← c.size_stub]
    exact origins_programCode hrelocated.sourced hj
  refine ⟨fun pc hpc => ?_, fun name e he pc hcovers => ?_⟩
  · have hsize : image.stubSize ≤ image.code.size := by
      rw [c.size_code, ← c.size_stub, programCode, List.append_assoc, Code.size_append]
      exact Nat.le_add_right _ _
    obtain ⟨i, hi, ho⟩ := horigin (lt_of_lt_of_le hpc hsize)
    rw [if_pos hpc] at ho
    exact ⟨i, hi, ho⟩
  · obtain ⟨hlow, hhigh⟩ := c.tiles.bounds (Table.get?_eq_some_iff.mp he)
    simp only [CodeEntry.covers, Bool.and_eq_true, decide_eq_true_eq] at hcovers
    dsimp only at hlow hhigh
    obtain ⟨i, hi, ho⟩ := @horigin pc (by omega)
    rw [if_neg (by omega)] at ho
    exact ⟨i, hi, ho⟩

/-- **Places flow from the tree into the code and influence nothing.** A program with its places
moved, in any way, has the same outcome with the places moved: the same image but for the origins of
its instructions, or the same error at the moved place. In an image every instruction of a function
has an origin, and the instructions before the functions have none. -/
theorem compile_relocate (hosts : List HostDecl) (program : Program) (φ : Location → Location) :
    compile hosts (program.relocate φ) = relocateOutcome φ (compile hosts program) ∧
      ∀ image, compile hosts program = .ok image → image.Sourced := by
  refine ⟨?_, fun image h => Compiler.sourced_of_compile h⟩
  have hcompile (q : Program) : compile hosts q =
      Compiler.translate hosts q >>= fun p => liftInternal (Compiler.link p) := by
    simp only [compile, Compiler.translate, bind_assoc]
  have hagree : AgreeOver (fun _ => True) φ (fun image image' => image' = image.relocate φ)
      (compile hosts program) (compile hosts (program.relocate φ)) := by
    rw [hcompile, hcompile]
    refine (Compiler.agree_translate hosts program).bind fun p p' hp => ?_
    rw [Compiler.link_of_relocated hp]
    cases Compiler.link p with
    | error e => exact AgreeOver.error (e := .internal e) trivial
    | ok image => exact .ok rfl
  generalize compile hosts program = x at hagree ⊢
  generalize compile hosts (program.relocate φ) = y at hagree ⊢
  cases hagree with
  | ok h => rw [h]; rfl
  | error e => rfl

/-- A loop with a variable of its own, whose slot is reserved in front of the loop. -/
def hoisted : Program :=
  ⟨[.function "main" [] [.whileLoop (.literal (.int 1) ⟨2, 10⟩)
      (.block [.declare ⟨.int, false, [⟨"d", none, none, ⟨3, 9⟩⟩], ⟨3, 5⟩⟩, .brk ⟨4, 5⟩] ⟨2, 13⟩)
      ⟨2, 3⟩] .void ⟨1, 1⟩]⟩

/-- A jump that belongs to no loop. -/
def stray : Program :=
  ⟨[.function "main" [] [.brk ⟨4, 5⟩] .void ⟨1, 1⟩]⟩

/-- A place ten lines further down. -/
def Location.down (l : Location) : Location := ⟨l.line + 10, l.column⟩

/-- Ten lines further down the reservation has the place of its variable, and the mistake that of
the jump. -/
theorem compile_relocate_hoisted :
    (imageOf [] hoisted).code.toList.map Instr.origin =
        [none, none, some ⟨3, 9⟩, some ⟨2, 10⟩, some ⟨2, 3⟩, some ⟨2, 3⟩, some ⟨3, 9⟩, some ⟨4, 5⟩,
          some ⟨2, 3⟩, some ⟨1, 1⟩] ∧
      compile [] (hoisted.relocate .down) = .ok ((imageOf [] hoisted).relocate .down) ∧
      (imageOf [] hoisted).Sourced ∧
      compile [] (stray.relocate .down) = .error (.mistake .breakOutsideLoop ⟨14, 5⟩) := by
  have hcompile : compile [] hoisted = .ok (imageOf [] hoisted) :=
    compile_eq_ok_imageOf (by decide +kernel)
  have hstray : compile [] stray = .error (.mistake .breakOutsideLoop ⟨4, 5⟩) := by
    decide +kernel
  have horigins : (imageOf [] hoisted).code.toList.map Instr.origin =
      [none, none, some ⟨3, 9⟩, some ⟨2, 10⟩, some ⟨2, 3⟩, some ⟨2, 3⟩, some ⟨3, 9⟩, some ⟨4, 5⟩,
        some ⟨2, 3⟩, some ⟨1, 1⟩] := by
    decide +kernel
  obtain ⟨hmoved, hsourced⟩ := compile_relocate [] hoisted .down
  refine ⟨horigins, ?_, hsourced _ hcompile, ?_⟩
  · rw [hmoved, hcompile]
    rfl
  · rw [(compile_relocate [] stray .down).1, hstray]
    rfl

end Stepwise
