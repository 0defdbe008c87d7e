import Mathlib
import Stepwise.Proofs.ProgramCorrespondence
import Stepwise.Source.Build

/-!
# Internal errors of the compiler

An internal error means that generated code does not fit together. Functions give each label a name
of its own and refer only to what is there, so the one thing that can go wrong is the name of a
function: it is a label too, and the program may choose it to be a label that is taken.

## Main definitions

* `Compiler.Reaches`: how far the compiler has come with the declarations of a program
* `Compiler.Collides`: the name of a function is a label that is taken

## Main results

* `Compiler.internal_errors`: an internal error is a collision of the name of a function
-/

namespace Stepwise

/-! ## Linking -/

variable {addr : Nat}

/-- Collecting labels fails only over one that is there twice. -/
theorem collectLabels_eq_error {t : Table Nat} {code : Code} {e : InternalError}
    (h : collectLabels addr t code = .error e) :
    ∃ l ∈ Code.labels code, e = .labelRedefinition l ∧
      (t.contains l = true ∨ 2 ≤ (Code.labels code).count l) := by
  induction code generalizing addr t with
  | nil => cases h
  | cons line code ih =>
    cases line with
    | instr i => exact ih h
    | label name =>
      simp only [collectLabels] at h
      split at h
      next hname =>
        cases h
        exact ⟨name, by simp, rfl, .inl hname⟩
      next hname =>
        obtain ⟨l, hmem, he, hl⟩ := ih h
        refine ⟨l, by simp [hmem], he, ?_⟩
        have hcount := List.count_pos_iff.mpr hmem
        rw [Code.labels_cons_label, List.count_cons]
        -- the label may have been put into the table by the first line
        by_cases hln : l = name
        · subst hln
          right
          simp only [BEq.rfl, if_true]
          omega
        · rcases hl with hl | hl
          · left
            rwa [Table.contains, Table.get?_insert_of_ne t hln] at hl
          · right
            omega

/-- Labels that were collected are all different. -/
theorem nodup_of_collectLabels {t t' : Table Nat} {code : Code}
    (h : collectLabels addr t code = .ok t') :
    code.labels.Nodup ∧ ∀ l ∈ code.labels, t.get? l = none := by
  induction code generalizing addr t with
  | nil => simp
  | cons line code ih =>
    cases line with
    | instr i => exact ih h
    | label name =>
      simp only [collectLabels] at h
      split at h
      · cases h
      next hname =>
        obtain ⟨hnodup, hnew⟩ := ih h
        have hname' : name ∉ Code.labels code := fun hmem => by
          have := hnew name hmem
          rw [Table.get?_insert_self] at this
          cases this
        refine ⟨List.nodup_cons.mpr ⟨hname', hnodup⟩, fun l hl => ?_⟩
        rcases List.mem_cons.mp hl with rfl | hl
        · simpa [Table.contains] using hname
        · have hne : l ≠ name := fun he => hname' (he ▸ hl)
          rw [← Table.get?_insert_of_ne t hne addr]
          exact hnew l hl

/-- Every label of the code has been collected. -/
theorem exists_of_collectLabels {t t' : Table Nat} {code : Code} {l : String}
    (h : collectLabels addr t code = .ok t') (hl : l ∈ Code.labels code) :
    ∃ a, t'.get? l = some a := by
  obtain ⟨line, hline, hlabel⟩ := List.mem_filterMap.mp hl
  obtain ⟨pre, post, rfl⟩ := List.append_of_mem hline
  cases line with
  | instr i => cases hlabel
  | label name =>
    cases hlabel
    exact ⟨_, get?_label_of_collectLabels h⟩

/-- A label with an address gives way to it. -/
theorem linkOperand_of_refers {labels : Table Nat} (op : OpCode) (pc : Nat) {o : Operand}
    (h : o.Refers (fun _ => False) fun l => ∃ a, labels.get? l = some a) :
    ∃ o', linkOperand labels op pc o = .ok o' ∧ o'.isPending = false := by
  cases o with
  | var key index => exact h.elim
  | label l =>
    obtain ⟨a, ha⟩ := h
    simp only [linkOperand, ha]
    exact ⟨_, rfl, rfl⟩
  | _ => exact ⟨_, rfl, rfl⟩

/-- Instructions that refer to labels with an address are linked, and nothing is left pending. -/
theorem linkFrom_of_refers {labels : Table Nat} {pc : Nat} {is : List Instr}
    (h : ∀ i ∈ is, i.Refers (fun _ => False) fun l => ∃ a, labels.get? l = some a) :
    ∃ js, linkFrom labels pc is = .ok js ∧
      ∀ j ∈ js, ∀ o ∈ j.operands, o.isPending = false := by
  induction is generalizing pc with
  | nil => exact ⟨[], rfl, by simp⟩
  | cons i is ih =>
    rw [List.forall_mem_cons] at h
    obtain ⟨js, hjs, hdone⟩ := @ih (pc + 1) h.2
    obtain ⟨j, hj, hjdone⟩ := Instr.mapOperands_of_forall fun o ho =>
      linkOperand_of_refers i.op pc (h.1 o ho)
    refine ⟨j :: js, ?_, List.forall_mem_cons.mpr ⟨hjdone, hdone⟩⟩
    simp only [linkFrom, bind_eq_ok, pure_eq_ok]
    exact ⟨j, hj, js, hjs, rfl⟩

theorem checkResolvedFrom_of_forall {js : List Instr}
    (h : ∀ j ∈ js, ∀ o ∈ j.operands, o.isPending = false) : checkResolvedFrom addr js = .ok () := by
  induction js generalizing addr with
  | nil => rfl
  | cons j js ih =>
    rw [List.forall_mem_cons] at h
    rw [checkResolvedFrom, if_neg (by simpa using h.1)]
    exact ih h.2

end Stepwise

namespace Stepwise.Compiler

open Lowering

variable {hosts : List HostDecl} {program : Program} {names : String → Prop}

/-! ## Functions of a program -/

/-- The names that all functions see stand for functions. -/
theorem provides_of_signed {scope : Scope} (h : Signed hosts program scope)
    (hn : ∀ f ∈ functionsOf program, names f.name) : Provides (fun _ => False) names scope := by
  intro name symbol hsym
  rw [Scope.lookup?_eq, h.outer, List.findSome?_nil, Option.or_none] at hsym
  rcases (h.get?_iff _ _).mp hsym with ⟨d, -, hd⟩ | ⟨f, hf, hname, params, -, hfun⟩
  · cases hd
    rintro ⟨⟩
  · cases hfun
    exact fun _ => Eq.subst hname.symm (hn f hf)

theorem provides_of_declareAll {decl : Declaration} {drs : List Declarator} {g g' : GlobalLayout}
    {scope scope' : Scope} (h : GlobalLayout.declareAll decl g scope drs = .ok (g', scope'))
    (hs : Provides (fun _ => False) names scope) : Provides (fun _ => False) names scope' := by
  induction drs generalizing g scope with
  | nil =>
    cases h
    exact hs
  | cons dr rest ih =>
    simp only [GlobalLayout.declareAll, bind_eq_ok] at h
    obtain ⟨⟨g₁, scope₁⟩, hone, hrest⟩ := h
    obtain ⟨_, _, _, -, hd, -⟩ := GlobalLayout.declareOne_eq_ok hone
    exact ih hrest (hs.declare (by rintro key ⟨⟩) hd)

/-- The code of a compiled function starts with the label of the function; its other labels are its
own, and what it refers to is there. -/
structure Wiring (names : String → Prop) (d : Definition) : Prop where
  labels : d.code.labels = d.source.name :: d.body.labels
  own : ∃ n, Numbered d.source.name 0 n d.body.labels
  refers : (∀ l ∈ d.body.labels, names l) → d.code.Refers (fun _ => False) names

theorem Definition.Compiled.wiring {d : Definition} (h : d.Compiled)
    (hs : Provides (fun _ => False) names d.scope) : Wiring names d := by
  obtain ⟨hlabels, hown, hrefers⟩ := wired_functionCode h.bound h.lowered hs
  refine ⟨?_, ⟨_, hown⟩, fun hl => ?_⟩
  · rw [labels_of_resolveCode h.resolved]
    exact hlabels
  · obtain ⟨c, hc, hr⟩ := resolveCode_of_refers (hrefers hl)
    cases hc.symm.trans h.resolved
    exact hr

variable {p : Progress}

/-- Every function of a translation is wired. -/
theorem Translated.wiring {p' : Progress} {stmts : List Stmt} {ds : List Definition}
    (h : Translated p stmts p' ds) (hs : Provides (fun _ => False) names p.scope) :
    Provides (fun _ => False) names p'.scope ∧ ∀ d ∈ ds, Wiring names d := by
  induction h with
  | nil p => exact ⟨hs, by simp⟩
  | declare hd _ ih => exact ih (provides_of_declareAll (globalsDeclare_eq_ok.mp hd).2 hs)
  | function _ hscope _ hc _ ih =>
    obtain ⟨hs', hds⟩ := ih hs
    exact ⟨hs', List.forall_mem_cons.mpr ⟨hc.wiring (hscope ▸ hs), hds⟩⟩

/-! ## Before linking -/

-- what fails in step with itself fails over a mistake

/-- Signatures fail only over mistakes. -/
theorem onlyMistakes_signatures (hosts : List HostDecl) (program : Program) :
    OnlyMistakes (signatures hosts program) := by
  obtain ⟨scope, hscope⟩ := declareHosts_eq_ok hosts
  unfold signatures
  rw [hscope]
  exact (agree_declareFunctions (φ := id) (fun _ => trivial) (.refl scope) _).onlyMistakes

/-- Global declarations fail only over mistakes. -/
theorem onlyMistakes_declare (g : GlobalLayout) (scope : Scope) (decl : Declaration) :
    OnlyMistakes (g.declare scope decl) := by
  refine (agree_declare (φ := id) (P := fun g g' => g' = g) ?_ ?_ (fun _ => trivial) (.refl scope)
    rfl decl).onlyMistakes
  · rintro g _ rfl
    rfl
  · rintro g _ name ty length values rfl
    rfl

/-- Lowering a function fails only over mistakes. -/
theorem onlyMistakes_draftFunction (scope : Scope) (globals : GlobalLayout) (f : Function) :
    OnlyMistakes (draftFunction f (.start scope globals)) :=
  (inStep_draftFunction (φ := id) f _ _ (twin_start (.refl scope) ⟨globals, globals⟩)).onlyMistakes

/-- A function whose names are there is compiled or has a mistake. -/
theorem onlyMistakes_compileFunction {scope : Scope} (globals : GlobalLayout) (f : Function)
    (hs : Provides (fun _ => False) (fun _ => True) scope) :
    OnlyMistakes (compileFunction scope globals f) := by
  refine (onlyMistakes_draftFunction scope globals f).bind_of_ok ?_
  rintro ⟨code, draft⟩ hdraft
  obtain ⟨d, body, hbound, hbody, rfl⟩ := draftFunction_eq_ok hdraft
  obtain ⟨-, -, hrefers⟩ := wired_functionCode hbound hbody hs
  obtain ⟨c, hc, -⟩ := resolveCode_of_refers (hrefers fun _ _ => trivial)
  dsimp only
  rw [hc]
  exact onlyMistakes_ok _

theorem onlyMistakes_compileStmt (s : Stmt)
    (hs : Provides (fun _ => False) (fun _ => True) p.scope) : OnlyMistakes (compileStmt p s) := by
  unfold compileStmt
  split
  · exact (onlyMistakes_declare _ _ _).bind fun _ => onlyMistakes_ok _
  · split
    · exact (onlyMistakes_compileFunction _ _ hs).bind fun _ => onlyMistakes_ok _
    · exact onlyMistakes_at rfl

theorem onlyMistakes_foldlM (stmts : List Stmt)
    (hs : Provides (fun _ => False) (fun _ => True) p.scope) :
    OnlyMistakes (stmts.foldlM compileStmt p) := by
  induction stmts generalizing p with
  | nil => exact onlyMistakes_ok _
  | cons s rest ih =>
    rw [List.foldlM_cons]
    refine (onlyMistakes_compileStmt s hs).bind_of_ok fun p₁ hp => ih ?_
    have hone : [s].foldlM compileStmt p = .ok p₁ := by
      rw [List.foldlM_cons, hp]
      rfl
    obtain ⟨ds, hds⟩ := translated_of_foldlM hone
    exact (hds.wiring hs).1

/-- **Declarations are compiled, or one of them has a mistake.** -/
theorem onlyMistakes_translate (hosts : List HostDecl) (program : Program) :
    OnlyMistakes (translate hosts program) := by
  refine (onlyMistakes_signatures hosts program).bind_of_ok fun scope hscope => ?_
  exact onlyMistakes_foldlM _ (provides_of_signed (signed_of_signatures hscope) fun _ _ => trivial)

/-- The compiler has come so far with a program: the declarations before `rest` are compiled. -/
def Reaches (hosts : List HostDecl) (program : Program) (p : Progress) (rest : List Stmt) : Prop :=
  ∃ scope done, signatures hosts program = .ok scope ∧ program.statements = done ++ rest ∧
    done.foldlM compileStmt ⟨scope, .empty, []⟩ = .ok p

/-- The labels of a function beside its name. -/
def generatedLabels (f : CompiledFunction) : List String := f.code.labels.tail

/-- A label of the form that lowering gives out in a function. -/
def Generates (g : Function) (l : String) : Prop :=
  ∃ kind ∈ labelKinds, ∃ n, l = labelName g.name kind n

/-- The functions that are compiled so far are functions of the program, and wired. -/
structure Parts (hosts : List HostDecl) (program : Program) (names : String → Prop) (p : Progress)
    (rest : List Stmt) (ds : List Definition) : Prop where
  functions : p.functions = ds.map Definition.function
  sources : functionsOf program = ds.map Definition.source ++ rest.filterMap Stmt.function?
  nodup : (ds.map (·.source.name)).Nodup
  wiring : ∀ d ∈ ds, Wiring names d
  provides : Provides (fun _ => False) names p.scope

theorem Reaches.parts {rest : List Stmt} (h : Reaches hosts program p rest) (names : String → Prop)
    (hn : ∀ f ∈ functionsOf program, names f.name) : ∃ ds, Parts hosts program names p rest ds := by
  obtain ⟨scope, done, hscope, hstmts, hfold⟩ := h
  obtain ⟨ds, hds⟩ := translated_of_foldlM hfold
  have hsigned := signed_of_signatures hscope
  obtain ⟨hs, hw⟩ := hds.wiring (provides_of_signed hsigned hn)
  obtain ⟨hfunctions, hsources⟩ := hds.functions
  have hall : functionsOf program = ds.map Definition.source ++ rest.filterMap Stmt.function? := by
    rw [functionsOf, hstmts, List.filterMap_append, hsources]
  have hnodup := hsigned.nodup
  rw [hall, List.map_append, List.map_map] at hnodup
  exact ⟨ds, hfunctions, hall, (List.nodup_append.mp hnodup).1, hw, hs⟩

namespace Parts

variable {p : Progress} {rest : List Stmt} {ds : List Definition}

theorem generatedLabels_eq (h : Parts hosts program names p rest ds) {d : Definition}
    (hd : d ∈ ds) : generatedLabels d.function = d.body.labels := by
  rw [generatedLabels, Definition.function, (h.wiring d hd).labels, List.tail_cons]

theorem mem_functionsOf (h : Parts hosts program names p rest ds) {d : Definition} (hd : d ∈ ds) :
    d.source ∈ functionsOf program := by
  rw [h.sources]
  exact List.mem_append_left _ (List.mem_map_of_mem hd)

/-- A label that lowering gave out tells its function. -/
theorem generates (h : Parts hosts program names p rest ds) {l : String}
    (hl : l ∈ p.functions.flatMap generatedLabels) : ∃ g ∈ functionsOf program, Generates g l := by
  rw [h.functions, List.flatMap_map] at hl
  obtain ⟨d, hd, hmem⟩ := List.mem_flatMap.mp hl
  rw [h.generatedLabels_eq hd] at hmem
  obtain ⟨n, hn⟩ := (h.wiring d hd).own
  obtain ⟨kind, hk, i, -, -, heq⟩ := hn.named l hmem
  exact ⟨d.source, h.mem_functionsOf hd, kind, hk, i, heq⟩

/-- **Labels that lowering gives out are different**, within a function and from one function to the
next. -/
theorem nodup_generatedLabels (h : Parts hosts program names p rest ds) :
    (p.functions.flatMap generatedLabels).Nodup := by
  rw [h.functions, List.flatMap_map, List.nodup_flatMap]
  refine ⟨fun d hd => ?_, ?_⟩
  · obtain ⟨n, hn⟩ := (h.wiring d hd).own
    rw [h.generatedLabels_eq hd]
    exact hn.nodup
  · have hnames := h.nodup
    rw [List.Nodup, List.pairwise_map] at hnames
    refine hnames.imp_of_mem fun {d e} hd he hne => ?_
    rw [Function.onFun, h.generatedLabels_eq hd, h.generatedLabels_eq he]
    intro l hl hl'
    obtain ⟨n, hn⟩ := (h.wiring d hd).own
    obtain ⟨m, hm⟩ := (h.wiring e he).own
    obtain ⟨kind, hk, i, -, -, rfl⟩ := hn.named l hl
    obtain ⟨kind', hk', j, -, -, heq⟩ := hm.named _ hl'
    exact hne (labelName_injective hk hk' heq).1

/-- The labels of a program are the names of its functions, the labels that lowering gave out, and
the one at the end. -/
theorem count_labels (h : Parts hosts program names p rest ds) (l : String) :
    (programCode p).labels.count l = (ds.map (·.source.name)).count l +
      (p.functions.flatMap generatedLabels).count l + [haltLabel].count l := by
  have hstub : (stub p.scope).labels = [] := Code.labels_ofInstrs _
  -- by induction on any of the functions, as the list of all occurs in the hypotheses
  have hcode : ∀ es : List Definition, (∀ e ∈ es, e ∈ ds) →
      (Code.labels ((es.map Definition.function).flatMap (·.code))).count l =
        (es.map (·.source.name)).count l +
          ((es.map Definition.function).flatMap generatedLabels).count l := by
    intro es hes
    induction es with
    | nil => rfl
    | cons e es ih =>
      rw [List.forall_mem_cons] at hes
      have hrest := ih hes.2
      have hlabels : Code.labels e.function.code = e.source.name :: generatedLabels e.function := by
        rw [h.generatedLabels_eq hes.1]
        exact (h.wiring e hes.1).labels
      simp only [List.map_cons, List.flatMap_cons, Code.labels_append, hlabels, List.count_append,
        List.count_cons] at hrest ⊢
      omega
  have hfunctions := hcode ds fun _ hd => hd
  rw [← h.functions] at hfunctions
  rw [programCode, Code.labels_append, Code.labels_append, hstub, List.nil_append,
    List.count_append, hfunctions]
  rfl

/-- **A label that is there twice is the name of a function**, and it is the label at the end or one
that lowering gave out in another function. -/
theorem collides (h : Parts hosts program names p rest ds) {l : String}
    (hl : 2 ≤ (programCode p).labels.count l) :
    ∃ f ∈ functionsOf program, f.name = l ∧
      (l = haltLabel ∨ ∃ g ∈ functionsOf program, g.name ≠ l ∧ Generates g l) := by
  have hnames := List.nodup_iff_count_le_one.mp h.nodup l
  have hgenerated := List.nodup_iff_count_le_one.mp h.nodup_generatedLabels l
  rw [h.count_labels, List.count_singleton] at hl
  have hgenerates (hpos : 0 < (p.functions.flatMap generatedLabels).count l) :
      ∃ g ∈ functionsOf program, g.name ≠ l ∧ Generates g l := by
    obtain ⟨g, hg, kind, hk, n, rfl⟩ := h.generates (List.count_pos_iff.mp hpos)
    exact ⟨g, hg, (labelName_ne _ _ _).symm, kind, hk, n, rfl⟩
  -- the label at the end has no dot, so lowering does not give it out
  have hhalt (hpos : 0 < (p.functions.flatMap generatedLabels).count l) : l ≠ haltLabel := by
    obtain ⟨g, -, -, kind, -, n, rfl⟩ := hgenerates hpos
    intro heq
    have hdot := dot_mem_labelName g.name kind n
    rw [heq] at hdot
    simp [haltLabel] at hdot
  have hpos : 0 < (ds.map (·.source.name)).count l := by
    by_contra hzero
    by_cases heq : haltLabel = l
    · exact hhalt (by split at hl <;> omega) heq.symm
    · rw [if_neg (by simpa using heq)] at hl
      omega
  obtain ⟨d, hd, rfl⟩ := List.mem_map.mp (List.count_pos_iff.mp hpos)
  refine ⟨d.source, h.mem_functionsOf hd, rfl, ?_⟩
  by_cases heq : haltLabel = d.source.name
  · exact .inl heq.symm
  · rw [if_neg (by simpa using heq)] at hl
    exact .inr (hgenerates (by omega))

/-- What the code of a program refers to is there if its labels are. -/
theorem refers_programCode (h : Parts hosts program names p rest ds) (hhalt : names haltLabel)
    (hown : ∀ f ∈ p.functions, ∀ l ∈ f.code.labels, names l) :
    (programCode p).Refers (fun _ => False) names := by
  rw [programCode, Code.refers_append, Code.refers_append]
  refine ⟨⟨?_, ?_⟩, by simp⟩
  · unfold stub
    split
    next hmain =>
      -- the call in front of the program refers to `main` only if it is there
      have hname : names "main" := by
        unfold hasMain at hmain
        split at hmain
        next sig hsig =>
          have hlookup : p.scope.lookup? "main" = some (.function sig) := by
            rw [Scope.lookup?_eq, show p.scope.inner.get? "main" = _ from hsig, Option.some_or]
          exact h.provides hlookup (by simpa using hmain)
        next => cases hmain
      simp [Code.ofInstrs, Instr.jmp, hhalt, hname]
    next => simp [Code.ofInstrs, Instr.jmp, hhalt]
  · intro i hi
    obtain ⟨line, hline, hinstr⟩ := List.mem_filterMap.mp hi
    obtain ⟨f, hf, hmem⟩ := List.mem_flatMap.mp hline
    obtain ⟨d, hd, rfl⟩ := List.mem_map.mp (h.functions ▸ hf)
    refine (h.wiring d hd).refers (fun l hl => hown _ hf l ?_) i ?_
    · rw [Definition.function, (h.wiring d hd).labels]
      exact List.mem_cons_of_mem _ hl
    · exact List.mem_filterMap.mpr ⟨line, hmem, hinstr⟩

end Parts

/-- The code of a function is part of the code of the program. -/
theorem mem_labels_programCode {f : CompiledFunction} (hf : f ∈ p.functions) {l : String}
    (hl : l ∈ f.code.labels) : l ∈ (programCode p).labels := by
  simp only [programCode, Code.labels_append, List.mem_append]
  refine .inl (.inr ?_)
  obtain ⟨line, hline, hlabel⟩ := List.mem_filterMap.mp hl
  exact List.mem_filterMap.mpr ⟨line, List.mem_flatMap.mpr ⟨f, hf, hline⟩, hlabel⟩

theorem haltLabel_mem (p : Progress) : haltLabel ∈ (programCode p).labels := by simp [programCode]

/-- The name of every function is a label of a program whose declarations are compiled. -/
theorem name_mem_labels (h : Reaches hosts program p []) {f : Function}
    (hf : f ∈ functionsOf program) : f.name ∈ (programCode p).labels := by
  obtain ⟨ds, hds⟩ := h.parts (fun _ => True) fun _ _ => trivial
  rw [hds.sources, List.filterMap_nil, List.append_nil] at hf
  obtain ⟨d, hd, rfl⟩ := List.mem_map.mp hf
  have hmem : d.function ∈ p.functions := hds.functions ▸ List.mem_map_of_mem hd
  refine mem_labels_programCode hmem ?_
  rw [Definition.function, (hds.wiring d hd).labels]
  exact List.mem_cons_self

/-- **Whatever the code of a program refers to is there.** -/
theorem refers_of_reaches (h : Reaches hosts program p []) :
    (programCode p).Refers (fun _ => False) (· ∈ (programCode p).labels) := by
  obtain ⟨ds, hds⟩ := h.parts _ fun f hf => name_mem_labels h hf
  exact hds.refers_programCode (haltLabel_mem p) fun f hf l hl => mem_labels_programCode hf hl

theorem reaches_of_translate (h : translate hosts program = .ok p) :
    Reaches hosts program p [] := by
  simp only [translate, bind_eq_ok] at h
  obtain ⟨scope, hscope, hfold⟩ := h
  exact ⟨scope, program.statements, hscope, by simp, hfold⟩

/-- Compilation translates the declarations and links them. -/
theorem compile_eq_bind (hosts : List HostDecl) (program : Program) :
    compile hosts program = translate hosts program >>= fun p => liftInternal (link p) := by
  rw [translate, bind_assoc]
  rfl

theorem compile_eq_internal {e : InternalError} :
    compile hosts program = .error (.internal e) ↔
      ∃ p, translate hosts program = .ok p ∧ link p = .error e := by
  rw [compile_eq_bind, bind_eq_error]
  constructor
  · rintro (h | ⟨p, hp, h⟩)
    · obtain ⟨_, _, ⟨⟩, -⟩ := onlyMistakes_translate hosts program _ h
    · refine ⟨p, hp, ?_⟩
      cases hlink : link p with
      | ok image => simp [hlink, liftInternal] at h
      | error e' =>
        rw [hlink] at h
        cases h
        rfl
  · rintro ⟨p, hp, hlink⟩
    exact .inr ⟨p, hp, by rw [hlink]; rfl⟩

/-- Linking fails only over a label that is there twice. -/
theorem link_eq_error {e : InternalError} (h : Reaches hosts program p [])
    (hlink : link p = .error e) :
    ∃ l, e = .labelRedefinition l ∧ 2 ≤ (programCode p).labels.count l := by
  change (assemble (programCode p) >>= fun instrs => _) = _ at hlink
  cases hlabels : labelAddresses (programCode p) with
  | error e' =>
    have he : e' = e := by
      simpa [assemble, hlabels, bind, Except.bind] using hlink
    obtain ⟨l, -, rfl, hempty | hcount⟩ := collectLabels_eq_error hlabels
    · cases hempty
    · exact ⟨l, he.symm, hcount⟩
  | ok labels =>
    have hrefers := (refers_of_reaches h).mono (fun _ => id) fun l hl =>
      exists_of_collectLabels hlabels hl
    obtain ⟨instrs, hinstrs, hdone⟩ := @linkFrom_of_refers _ 0 _ hrefers
    have hchecked : checkResolved instrs = .ok () := checkResolvedFrom_of_forall hdone
    simp [assemble, hlabels, hinstrs, hchecked, bind, Except.bind, pure, Except.pure] at hlink

/-- **Internal errors of the compiler.** No internal error is about a variable without a place, a
label without an address or an operand that is left pending. A label is redefined only by a function
of the program whose name is the label at the end of the code, or one that lowering gives out in
another function; and a function with the name of the label at the end is never compiled. However
far the compiler comes with a program, the labels that lowering gave out are different, functions
refer only to their own labels and to functions of the program, and the variables that lowering
refers to are in the frame. In a program whose declarations are compiled, every label that the code
refers to is defined. -/
theorem internal_errors (hosts : List HostDecl) (program : Program) :
    (∀ e, compile hosts program = .error (.internal e) →
      ∃ f ∈ functionsOf program, e = .labelRedefinition f.name ∧
        (f.name = haltLabel ∨ ∃ g ∈ functionsOf program, g.name ≠ f.name ∧ Generates g f.name)) ∧
    (∀ f ∈ functionsOf program, f.name = haltLabel → ∀ image, compile hosts program ≠ .ok image) ∧
    (∀ p rest, Reaches hosts program p rest →
      (p.functions.flatMap generatedLabels).Nodup ∧
      (∀ f ∈ p.functions, f.code.labels = f.name :: generatedLabels f ∧
        f.code.Refers (fun _ => False)
          fun l => l ∈ generatedLabels f ∨ ∃ g ∈ functionsOf program, g.name = l) ∧
      ∀ s ∈ rest.head?, ∀ f ∈ s.function?, ∀ code draft,
        draftFunction f (.start p.scope p.globals) = .ok (code, draft) →
          code.Refers (HasKey draft.frame) fun _ => True) ∧
    (∀ p, translate hosts program = .ok p →
      (programCode p).Refers (fun _ => False) (· ∈ (programCode p).labels)) := by
  refine ⟨fun e he => ?_, fun f hf hname image himage => ?_, fun p rest hreach => ⟨?_, ?_, ?_⟩,
    fun p hp => refers_of_reaches (reaches_of_translate hp)⟩
  · obtain ⟨p, hp, hlink⟩ := compile_eq_internal.mp he
    have hreach := reaches_of_translate hp
    obtain ⟨l, rfl, hcount⟩ := link_eq_error hreach hlink
    obtain ⟨ds, hds⟩ := hreach.parts (fun _ => True) fun _ _ => trivial
    obtain ⟨f, hf, rfl, hcollides⟩ := hds.collides hcount
    exact ⟨f, hf, rfl, hcollides⟩
  · obtain ⟨p, hp, hlink⟩ := compile_eq_ok.mp himage
    have hreach := reaches_of_translate hp
    obtain ⟨ds, hds⟩ := hreach.parts (fun _ => True) fun _ _ => trivial
    simp only [link, assemble, bind_eq_ok] at hlink
    obtain ⟨_, ⟨labels, hlabels, -⟩, -⟩ := hlink
    -- a label is collected once, but this one stands at the end and names a function
    have hle := List.nodup_iff_count_le_one.mp (nodup_of_collectLabels hlabels).1 haltLabel
    have hpos : 0 < (ds.map (·.source.name)).count haltLabel := by
      rw [hds.sources, List.filterMap_nil, List.append_nil] at hf
      obtain ⟨d, hd, rfl⟩ := List.mem_map.mp hf
      exact List.count_pos_iff.mpr (List.mem_map.mpr ⟨d, hd, hname⟩)
    have hcount := hds.count_labels haltLabel
    rw [List.count_singleton_self] at hcount
    simp only [programCode] at hcount
    omega
  · obtain ⟨ds, hds⟩ := hreach.parts (fun _ => True) fun _ _ => trivial
    exact hds.nodup_generatedLabels
  · intro f hf
    obtain ⟨ds, hds⟩ := hreach.parts
      (fun l => l ∈ generatedLabels f ∨ ∃ g ∈ functionsOf program, g.name = l)
      fun g hg => .inr ⟨g, hg, rfl⟩
    obtain ⟨d, hd, rfl⟩ := List.mem_map.mp (hds.functions ▸ hf)
    have hw := hds.wiring d hd
    have hgen := hds.generatedLabels_eq hd
    refine ⟨by rw [hgen]; exact hw.labels, hw.refers fun l hl => .inl ?_⟩
    rwa [hgen]
  · intro s hs f hf code draft hdraft
    obtain ⟨ds, hds⟩ := hreach.parts (fun _ => True) fun _ _ => trivial
    obtain ⟨d, body, hbound, hbody, rfl⟩ := draftFunction_eq_ok hdraft
    obtain ⟨-, -, hrefers⟩ := wired_functionCode hbound hbody hds.provides
    exact hrefers fun _ _ => trivial

/-- A function with the name of a label in another one. -/
def collision : Program :=
  ⟨[Build.func "f" [] .void [Build.branch (Build.lit (.bool true)) (Build.ret none) none],
    Build.func "f.endif1" [] .void []]⟩

/-- The name of the second function is refused, as a label of the first one. -/
theorem internal_errors_collision :
    compile [] collision = .error (.internal (.labelRedefinition "f.endif1")) ∧
      ∃ f ∈ functionsOf collision,
        InternalError.labelRedefinition "f.endif1" = .labelRedefinition f.name ∧
          (f.name = haltLabel ∨
            ∃ g ∈ functionsOf collision, g.name ≠ f.name ∧ Generates g f.name) := by
  have hcompile : compile [] collision = .error (.internal (.labelRedefinition "f.endif1")) := by
    decide +kernel
  exact ⟨hcompile, (internal_errors [] collision).1 _ hcompile⟩

end Stepwise.Compiler
