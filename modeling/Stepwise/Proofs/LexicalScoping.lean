import Mathlib
import Stepwise.Proofs.ProgramCorrespondence
import Stepwise.Proofs.ScopedLowering
import Stepwise.Proofs.StackDiscipline

/-!
# Lexical scoping

A name in a function means the declaration in the innermost scope around it that has the name. The
compiler gets there in three steps: tables of names that are stacked while it goes through the text,
keys of the frame that it makes up where a name was there before, and offsets in the place of keys
when the whole body is done. In the end, the operands are those of the declarations.

## Main definitions

* `Compiler.Addresses`: an operand addresses the declaration that a name means
* `Compiler.LexicallyScoped`: the names of a function in the finished image
* `Compiler.TopLevel`: the names of the top level

## Main results

* `lexical_scoping`: every function of an image is lexically scoped
-/

namespace Stepwise

open Lowering Snippet

/-! ## Functions -/

/-- Parameters are declared in order. -/
theorem follows_of_bound {frame : FrameLayout} {root : List (Table Symbol)} {o : Outline}
    {d d' : Draft} {ps : List (Ty × String)} (h : Bound d ps d') (hf : d.Follows frame root o)
    (hx : d'.frame.Extends frame) :
    d'.Follows frame root (o ++ ps.map fun p => .bind (.param p.2)) := by
  induction h generalizing o with
  | nil =>
    rw [List.map_nil, List.append_nil]
    exact hf
  | @cons d d' ty name rest scope hdeclare hrest ih =>
    have hentry : frame.entries.get? (d.frame.freshKey name) =
        some ⟨-((d.frame.params : Int) + 1), ty, none⟩ := by
      refine hx.entries ((Compiler.bound_frame hrest).1.entries ?_)
      simp [FrameLayout.addParam]
    have hfirst : Draft.Follows frame root (o ++ [.bind (.param name)])
        { d with frame := (d.frame.addParam name ty).2, scope := scope } := by
      refine hf.bind (b := .param name) ?_ ?_ hdeclare rfl rfl hentry ?_ rfl
      · simp [FrameLayout.addParam, Mark.slots, hf.params]
      · simp [FrameLayout.addParam, Mark.slots, hf.next]
      · simp only [Binding.offset]
        rw [hf.params]
    have hall := ih hfirst hx
    rwa [List.append_assoc] at hall

theorem Function.paramOutline_eq (f : Function) :
    f.paramOutline = (namedParams f.parameters).map fun p => .bind (.param p.2) := by
  simp [Function.paramOutline, namedParams, List.map_flatMap, Function.comp_def]

namespace Compiler

/-- **A function finds the declarations of its names.** -/
theorem Definition.Compiled.scoped {d : Definition} (h : d.Compiled) {final : GlobalLayout}
    (hroot : ClearRoot (d.scope.inner :: d.scope.outer) final)
    (hx : d.finish.supply.globals.Extends final) :
    d.finish.Follows d.finish.frame (d.scope.inner :: d.scope.outer) d.source.outline ∧
      Matched (Finds d.finish.frame (d.scope.inner :: d.scope.outer)) final d.source.accesses
        d.draft := by
  obtain ⟨_, hg⟩ := h.grows
  have hstart := follows_of_bound h.bound (.start d.scope d.globals) hg.frame
  rw [List.nil_append, ← Function.paramOutline_eq] at hstart
  have hbody := scoped_of_lowerBody hroot rfl h.start_reserved h.lowered hstart ⟨.refl _, hx⟩
  refine ⟨hbody.follows, ?_⟩
  have hdraft : d.draft.memory final.casts = d.body.memory final.casts := by
    have hret : Code.memory final.casts (Code.ofInstrs [Instr.ret.withOrigin d.source.loc]) = [] :=
      rfl
    rw [Definition.draft, functionCode, Code.memory_append, Code.memory_append, hret,
      List.append_nil]
    rfl
  unfold Matched
  rw [hdraft]
  exact hbody.matched

end Compiler

/-! ## Images -/

/-- An operand with the offset of a variable in the place of its key. -/
def Operand.addressed (frame : FrameLayout) : Operand → Operand
  | .var key index =>
    (frame.offset? key).elim (.var key index) fun offset => .ptr ⟨.frame, offset, index⟩
  | o => o

/-- Labels are not in memory, and so settling an operand that is means to address it. -/
theorem filter_settle (cells : List (Ty × Nat)) (labels : Table Nat) (frame : FrameLayout)
    (op : OpCode) (pc : Nat) (os : List Operand) :
    (os.map (Operand.settle labels frame op pc)).filter (Operand.inMemory cells) =
      (os.filter (Operand.inMemory cells)).map (Operand.addressed frame) := by
  induction os with
  | nil => rfl
  | cons o os ih =>
    have hsame : (o.settle labels frame op pc).inMemory cells = o.inMemory cells ∧
        (o.inMemory cells = true → o.settle labels frame op pc = o.addressed frame) := by
      cases o with
      | var key index =>
        rw [Operand.settle, Operand.addressed]
        cases frame.offset? key <;> exact ⟨rfl, fun _ => rfl⟩
      | label name =>
        refine ⟨?_, fun hmem => absurd hmem Bool.false_ne_true⟩
        rw [Operand.settle]
        cases labels.get? name <;> rfl
      | _ => exact ⟨rfl, fun _ => rfl⟩
    rw [List.map_cons, List.filter_cons, List.filter_cons, hsame.1, ih]
    split
    next hmem => rw [List.map_cons, hsame.2 hmem]
    next => rfl

theorem Instr.memory_settle (cells : List (Ty × Nat)) (labels : Table Nat) (frame : FrameLayout)
    (pc : Nat) (i : Instr) :
    (i.settle labels frame pc).memory cells = (i.memory cells).map (Operand.addressed frame) := by
  have hoperands : (i.settle labels frame pc).operands =
      i.operands.map (Operand.settle labels frame i.op pc) := by
    obtain ⟨op, dest, src, comment, origin⟩ := i
    cases dest <;> cases src <;> rfl
  rw [Instr.memory, hoperands, filter_settle, Instr.memory]

/-- Placed code has the operands of the draft, with their addresses. -/
theorem memory_of_placed {cells : List (Ty × Nat)} {p : Assembled} {frame : FrameLayout} {addr : Nat}
    {code : Code} (h : Placed p frame addr code) :
    ((p.code.toList.drop addr).take code.size).flatMap (Instr.memory cells) =
      (code.memory cells).map (Operand.addressed frame) := by
  induction code generalizing addr with
  | nil => simp
  | cons line code ih =>
    cases line with
    | label name => exact ih h.2
    | instr i =>
      obtain ⟨hi, hrest⟩ := h
      obtain ⟨j, hj, hbare⟩ := Option.map_eq_some_iff.mp hi
      have hmem : j.memory cells = (i.memory cells).map (Operand.addressed frame) := by
        rw [← Instr.memory_settle cells p.labels frame addr i]
        show j.bare.memory cells = _
        rw [hbare]
        rfl
      have hdrop : p.code.toList.drop addr = j :: p.code.toList.drop (addr + 1) := by
        rw [← Array.getElem?_toList] at hj
        obtain ⟨hlt, rfl⟩ := List.getElem?_eq_some_iff.mp hj
        exact List.drop_eq_getElem_cons hlt
      rw [hdrop, Code.size_cons_instr, List.take_succ_cons, List.flatMap_cons, hmem,
        ih hrest, Code.memory_cons_instr, List.map_append]

/-- The operands in memory of the code of a function. -/
def Image.memory (image : Image) (cells : List (Ty × Nat)) (e : CodeEntry) : List Operand :=
  ((image.code.toList.drop e.addr).take e.size).flatMap (Instr.memory cells)

/-- The names of the global variables that a statement declares. -/
def Stmt.globalNames : Stmt → List String
  | .declare decl => decl.declarators.map Declarator.name
  | _ => []

namespace Compiler

/-- An operand addresses the declaration that a name means: the first slot of a declaration of the
function, or that of a global variable declared before the function. -/
def Addresses (p : Progress) (before : List Stmt) (a : Access) (op : Operand) : Prop :=
  (∃ outline b, a.before.Selects a.use.name outline b ∧
    op = .ptr ⟨.frame, b.offset outline, a.use.index⟩) ∨
  ((∀ outline b, b.name = a.use.name → ¬a.before.Visible outline b) ∧
    a.use.name ∈ before.flatMap Stmt.globalNames ∧
    ∃ v offset, p.scope.inner.get? a.use.name = some (.variable v) ∧ v.slot = .global offset ∧
      op = .ptr ⟨.global, offset, a.use.index⟩)

/-- The names of a function in a finished image, with the statements before the function and the
entry of its code. -/
structure LexicallyScoped (p : Progress) (image : Image) (before : List Stmt) (f : Function)
    (e : CodeEntry) : Prop where
  /-- Each use of a name addresses the declaration that the name means. -/
  uses : List.Forall₂ (Addresses p before) f.accesses (image.memory p.globals.casts e)
  /-- Each declaration has its slots in the frame. -/
  slots : ∀ (outline : Outline) (b : Binding) (after : Outline),
    f.outline = outline ++ .bind b :: after →
    ∃ key entry, e.frame.get? key = some entry ∧ entry.offset = b.offset outline ∧
      entry.span = b.span
  /-- No two declarations share a slot. -/
  separate : ∀ (outline mid after : Outline) (b b' : Binding) (i j : Nat),
    f.outline = outline ++ .bind b :: (mid ++ .bind b' :: after) → i < b.span → j < b'.span →
    b.offset outline + i ≠ b'.offset (outline ++ .bind b :: mid) + j
  /-- No scope declares a name twice. -/
  distinct : f.outline.Distinct

/-- The names of the top level: those of host functions, of functions and of global variables are
all different, and no two global variables share a slot. -/
structure TopLevel (hosts : List HostDecl) (program : Program) (p : Progress) : Prop where
  nodup : (((hostTable hosts).entries.map Prod.snd).map HostDecl.name ++
    ((functionsOf program).map Function.name ++
      program.statements.flatMap Stmt.globalNames)).Nodup
  separate : ∀ {name name' : String} {v v' : Variable} {o o' k : Nat},
    p.scope.inner.get? name = some (.variable v) → p.scope.inner.get? name' = some (.variable v') →
    v.slot = .global o → v'.slot = .global o' → o ≤ k → k < o + v.span → o' ≤ k →
    k < o' + v'.span → name = name'

theorem Adds.append {s s₁ s' : Scope} {es es' : List (String × Symbol)} (h : Adds s es s₁)
    (h' : Adds s₁ es' s') : Adds s (es ++ es') s' := by
  induction h with
  | nil => exact h'
  | cons hd _ ih => exact .cons hd (ih h')

theorem adds_of_declareAll {decl : Declaration} {drs : List Declarator} {g g' : GlobalLayout}
    {scope scope' : Scope} (h : GlobalLayout.declareAll decl g scope drs = .ok (g', scope')) :
    ∃ es, Adds scope es scope' ∧ es.map Prod.fst = drs.map Declarator.name := by
  induction drs generalizing g scope with
  | nil =>
    cases h
    exact ⟨[], .nil _, rfl⟩
  | cons dr rest ih =>
    simp only [GlobalLayout.declareAll, bind_eq_ok] at h
    obtain ⟨⟨g₁, scope₁⟩, hone, hrest⟩ := h
    obtain ⟨_, _, _, -, hd, -⟩ := GlobalLayout.declareOne_eq_ok hone
    obtain ⟨es, hes, hnames⟩ := ih hrest
    exact ⟨_ :: es, .cons hd hes, by rw [List.map_cons, List.map_cons, hnames]⟩

theorem globalNames_of_function {s : Stmt} {f : Function} (h : s.function? = some f) :
    s.globalNames = [] := by
  cases s with
  | declare decl => cases h
  | _ => rfl

/-- A translation adds the names of the global variables. -/
theorem Translated.adds {p p' : Progress} {stmts : List Stmt} {ds : List Definition}
    (h : Translated p stmts p' ds) :
    ∃ es, Adds p.scope es p'.scope ∧ es.map Prod.fst = stmts.flatMap Stmt.globalNames := by
  induction h with
  | nil p => exact ⟨[], .nil _, rfl⟩
  | declare hd _ ih =>
    obtain ⟨es, hes, hnames⟩ := adds_of_declareAll (globalsDeclare_eq_ok.mp hd).2
    obtain ⟨es', hes', hnames'⟩ := ih
    refine ⟨es ++ es', hes.append hes', ?_⟩
    rw [List.map_append, hnames, hnames', List.flatMap_cons]
    rfl
  | function hf _ _ _ _ ih =>
    obtain ⟨es, hes, hnames⟩ := ih
    refine ⟨es, hes, ?_⟩
    rw [List.flatMap_cons, globalNames_of_function hf, List.nil_append, hnames]

/-- A function sees the global variables before it. -/
theorem Translated.exists_definition {p p' : Progress} {before after : List Stmt} {s : Stmt}
    {f : Function} {ds : List Definition} (h : Translated p (before ++ s :: after) p' ds)
    (hf : s.function? = some f) :
    ∃ d ∈ ds, d.source = f ∧ ∃ es, Adds p.scope es d.scope ∧
      es.map Prod.fst = before.flatMap Stmt.globalNames := by
  induction before generalizing p ds with
  | nil =>
    rw [List.nil_append] at h
    cases h with
    | declare => cases hf
    | function hf' hscope =>
      refine ⟨_, List.mem_cons_self, Option.some.inj (hf'.symm.trans hf), [], ?_, rfl⟩
      rw [hscope]
      exact .nil _
  | cons first before ih =>
    rw [List.cons_append] at h
    cases h with
    | declare hd hrest =>
      obtain ⟨es, hes, hnames⟩ := adds_of_declareAll (globalsDeclare_eq_ok.mp hd).2
      obtain ⟨d, hmem, hsource, es', hes', hnames'⟩ := ih hrest
      refine ⟨d, hmem, hsource, es ++ es', hes.append hes', ?_⟩
      rw [List.map_append, hnames, hnames', List.flatMap_cons]
      rfl
    | function hf' hscope _ _ hrest =>
      obtain ⟨d, hmem, hsource, es, hes, hnames⟩ := ih hrest
      refine ⟨d, List.mem_cons_of_mem _ hmem, hsource, es, hes, ?_⟩
      rw [List.flatMap_cons, globalNames_of_function hf', List.nil_append, hnames]

theorem exists_entry_of_mem {addr : Nat} {ds : List Definition} (hds : ∀ d ∈ ds, d.Compiled)
    {d : Definition} (hd : d ∈ ds) :
    ∃ entry, d.routine entry ∈ routinesFrom addr ds ∧
      (d.source.name, d.entryAt entry) ∈ codeEntries addr (ds.map Definition.function) := by
  induction ds generalizing addr with
  | nil => cases hd
  | cons first rest ih =>
    have hsize : first.function.code.size = first.draft.size :=
      (hds first List.mem_cons_self).size_code
    rw [List.map_cons, codeEntries, hsize]
    rcases List.mem_cons.mp hd with rfl | hd
    · exact ⟨addr, List.mem_cons_self, List.mem_cons_self⟩
    · obtain ⟨entry, hr, he⟩ := @ih (addr + first.draft.size)
        (fun e he => hds e (List.mem_cons_of_mem _ he)) hd
      exact ⟨entry, List.mem_cons_of_mem _ hr, List.mem_cons_of_mem _ he⟩

namespace Compilation

variable {hosts : List HostDecl} {program : Program} {image : Image}
  (c : Compilation hosts program image)

theorem topLevel : TopLevel hosts program c.progress where
  nodup := by
    obtain ⟨es, hes, hnames⟩ := c.translated.adds
    obtain ⟨hnodup, hfree, -⟩ := hes.names
    -- functions, host functions and globals are told apart by what their names mean
    have hfunction {f : Function} (hf : f ∈ functionsOf program) :
        ∃ sig, c.scope.inner.get? f.name = some (.function sig) ∧ sig.external = false := by
      obtain ⟨⟨name, symbol⟩, hname, params, hp, hsym⟩ := c.signed.named f hf
      cases hname
      cases hsym
      exact ⟨_, (c.signed.get?_iff _ _).mpr (.inr ⟨f, hf, rfl, params, hp, rfl⟩), rfl⟩
    have hhost {d : HostDecl} (hd : d ∈ (hostTable hosts).entries.map Prod.snd) :
        ∃ sig, c.scope.inner.get? d.name = some (.function sig) ∧ sig.external = true :=
      ⟨_, (c.signed.get?_iff _ _).mpr (.inl ⟨d, hd, rfl⟩), rfl⟩
    have hglobal {name : String} (h : name ∈ program.statements.flatMap Stmt.globalNames) :
        c.scope.inner.get? name = none := by
      rw [← hnames] at h
      obtain ⟨e, he, rfl⟩ := List.mem_map.mp h
      exact hfree e he
    refine List.nodup_append.mpr ⟨nodup_hostTable hosts, List.nodup_append.mpr
      ⟨c.signed.nodup, hnames ▸ hnodup, ?_⟩, ?_⟩
    · rintro _ hname _ hg rfl
      obtain ⟨f, hf, rfl⟩ := List.mem_map.mp hname
      obtain ⟨sig, hsig, -⟩ := hfunction hf
      cases (hglobal hg).symm.trans hsig
    · rintro _ hname _ hrest rfl
      obtain ⟨d, hd, rfl⟩ := List.mem_map.mp hname
      obtain ⟨sig, hsig, hext⟩ := hhost hd
      rcases List.mem_append.mp hrest with hf | hg
      · obtain ⟨f, hf, hsame⟩ := List.mem_map.mp hf
        obtain ⟨sig', hsig', hext'⟩ := hfunction hf
        rw [hsame] at hsig'
        cases hsig.symm.trans hsig'
        cases hext.symm.trans hext'
      · cases (hglobal hg).symm.trans hsig
  separate := c.sound.separate

/-- The names around a function are those of the top level. -/
theorem clearRoot {d : Definition} (hd : d ∈ c.definitions) :
    d.scope.outer = [] ∧ ClearRoot (d.scope.inner :: d.scope.outer) c.progress.globals := by
  obtain ⟨-, hw₀, hw, -⟩ := c.translated.mem c.sound_start hd
  have houter : d.scope.outer = [] := hw₀.outer.trans c.signed.outer
  refine ⟨houter, fun name v index hv => ?_⟩
  rw [houter, List.findSome?_cons, List.findSome?_nil] at hv
  have hv' : d.scope.inner.get? name = some (.variable v) := by
    cases hget : d.scope.inner.get? name with
    | none =>
      rw [hget] at hv
      cases hv
    | some symbol =>
      rw [hget] at hv
      exact hv
  obtain ⟨offset, hslot, hpos, -⟩ := c.sound.declared (hw.keep hv')
  rw [hslot]
  show (_ || !c.progress.globals.casts.any _) = true
  rw [Bool.or_eq_true, Bool.not_eq_true', List.any_eq_false]
  right
  rintro ⟨ty, cell⟩ hcell heq
  have hsame : (cell : Int) = (offset : Int) := by simpa using heq
  exact c.sound.cell_apart hcell (hw.keep hv') hslot ⟨by omega, by omega⟩

/-- **The functions of an image are lexically scoped.** -/
theorem lexicallyScoped {before after : List Stmt} {s : Stmt} {f : Function}
    (hsplit : program.statements = before ++ s :: after) (hf : s.function? = some f) :
    ∃ e, image.symbols.code.get? f.name = some e ∧
      LexicallyScoped c.progress image before f e := by
  have htranslated := c.translated
  rw [hsplit] at htranslated
  obtain ⟨d, hd, rfl, es, hes, hnames⟩ := htranslated.exists_definition hf
  obtain ⟨hc, hw₀, hw, -, hx⟩ := c.translated.mem c.sound_start hd
  obtain ⟨houter, hclear⟩ := c.clearRoot hd
  obtain ⟨hfollows, hmatched⟩ := hc.scoped hclear hx
  obtain ⟨entry, hr, he⟩ := exists_entry_of_mem (fun d hd => c.compiled hd) hd
  refine ⟨d.entryAt entry, ?_, ?_, hfollows.entries, ?_,
    Outline.distinct_of_nodup hfollows.distinct⟩
  · rw [Table.get?_eq_some_iff, c.entries_code]
    exact he
  · have hmemory : image.memory c.progress.globals.casts (d.entryAt entry) =
        (d.draft.memory c.progress.globals.casts).map (Operand.addressed d.finish.frame) :=
      memory_of_placed (c.placed hr).1
    rw [hmemory, List.forall₂_map_right_iff]
    refine hmatched.imp fun a op hfinds => ?_
    rcases hfinds with ⟨outline, b, key, hselects, hkey, rfl⟩ | ⟨hnone, v, hv, rfl⟩
    · refine .inl ⟨outline, b, hselects, ?_⟩
      rw [Operand.addressed, hkey, Option.elim_some]
    · have hv' : d.scope.inner.get? a.use.name = some (.variable v) := by
        rw [houter] at hv
        exact (List.findSome?_singleton).symm.trans hv
      obtain ⟨offset, hslot, -⟩ := c.sound.declared (hw.keep hv')
      refine .inr ⟨hnone, ?_, v, offset, hw.keep hv', hslot, ?_⟩
      · -- the name was not there at the start, and so it is one of those added since
        rcases (hes.names.2.2 _ _).mp hv' with hstart | hmem
        · exact absurd hstart (c.signed.not_variable _ _)
        · rw [← hnames]
          exact List.mem_map_of_mem hmem
      · rw [hslot]
        rfl
  · intro outline mid after b b' i j houtline hi hj
    exact Binding.offset_ne hi hj

end Compilation

end Compiler

/-- **Lexical scoping.** In a compiled program, each use of a variable or of an array in a function
addresses the declaration that lexical scoping selects, and globals declared behind the function are
not seen. The declarations of a function have slots of their own, and no scope declares a name
twice. -/
theorem lexical_scoping {hosts : List HostDecl} {program : Program} {image : Image}
    (h : compile hosts program = .ok image) :
    ∃ p, Compiler.translate hosts program = .ok p ∧ Compiler.TopLevel hosts program p ∧
      ∀ before s after f, program.statements = before ++ s :: after → s.function? = some f →
        ∃ e, image.symbols.code.get? f.name = some e ∧
          Compiler.LexicallyScoped p image before f e := by
  obtain ⟨c, htranslate⟩ := Compiler.exists_compilation h
  refine ⟨c.progress, htranslate, c.topLevel, ?_⟩
  intro before s after f hsplit hf
  exact c.lexicallyScoped hsplit hf

/-- A function whose parameter, local variables and loop variable hide each other and a global. -/
def shadower : Function where
  name := "f"
  parameters := [Build.param .int "n"]
  ret := .int
  body :=
    [Build.array .int "a" 3,
      Build.var .int "x" (some (Build.binary .add (Build.ident "x") (Build.ident "n"))),
      Build.block
        [Build.var .int "x" (some (Build.ident "x")),
          Build.expr (Build.assign (Build.member "a" (Build.ident "x")) (Build.ident "n"))],
      Build.forLoop (some (Build.var .int "n" (some (Build.lit (.int 0)))))
        (some (Build.binary .lt (Build.ident "n") (Build.lit (.int 3))))
        (some (Build.suffixed .inc (Build.ident "n"))) (Build.var .int "x" (some (Build.ident "n"))),
      Build.ret (some (Build.ident "x"))]
  loc := .unknown

/-- A program with this function between two globals. -/
def shadowing : Program :=
  ⟨[Build.var .int "x" (some (Build.lit (.int 7))),
    Build.func shadower.name shadower.parameters shadower.ret shadower.body,
    Build.var .int "late" none]⟩

/-- The operands of its names, in the order of the code. -/
def shadowerOperands : List Operand :=
  [.ptr ⟨.global, 0, none⟩, .ptr ⟨.frame, -1, none⟩, .ptr ⟨.frame, 4, none⟩,
    .ptr ⟨.frame, 5, none⟩, .ptr ⟨.frame, 4, none⟩, .ptr ⟨.frame, 5, none⟩,
    .ptr ⟨.frame, 1, some .ix⟩, .ptr ⟨.frame, -1, none⟩, .ptr ⟨.frame, 6, none⟩,
    .ptr ⟨.frame, 6, none⟩, .ptr ⟨.frame, 7, none⟩, .ptr ⟨.frame, 6, none⟩,
    .ptr ⟨.frame, 6, none⟩, .ptr ⟨.frame, 4, none⟩]

/-- The first `x` is the global one, and each of the others is one of three local ones. -/
theorem lexical_scoping_shadowing :
    ∃ p e, Compiler.translate [] shadowing = .ok p ∧ Compiler.TopLevel [] shadowing p ∧
      (imageOf [] shadowing).symbols.code.get? "f" = some e ∧
      Compiler.LexicallyScoped p (imageOf [] shadowing)
        [Build.var .int "x" (some (Build.lit (.int 7)))] shadower e ∧
      shadower.accesses.map (fun a => a.use.name) =
        ["x", "n", "x", "x", "x", "x", "a", "n", "n", "n", "x", "n", "n", "x"] ∧
      (imageOf [] shadowing).memory p.globals.casts e = shadowerOperands := by
  have hcompile : compile [] shadowing = .ok (imageOf [] shadowing) :=
    compile_eq_ok_imageOf (by decide +kernel)
  have hmemory : ((Compiler.translate [] shadowing).toOption.bind fun p =>
      ((imageOf [] shadowing).symbols.code.get? "f").map fun e =>
        (imageOf [] shadowing).memory p.globals.casts e) =
      some shadowerOperands := by
    decide +kernel
  generalize imageOf [] shadowing = image at hcompile hmemory ⊢
  obtain ⟨p, htranslate, htop, hscoped⟩ := lexical_scoping hcompile
  obtain ⟨e, he, hf⟩ := hscoped [Build.var .int "x" (some (Build.lit (.int 7)))] _ _ shadower rfl rfl
  refine ⟨p, e, htranslate, htop, he, hf, by decide +kernel, ?_⟩
  have he' : image.symbols.code.get? "f" = some e := he
  rw [htranslate, he'] at hmemory
  exact Option.some.inj hmemory

end Stepwise
