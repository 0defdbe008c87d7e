import Mathlib
import Stepwise.Proofs.DeclarationOrder
import Stepwise.Proofs.InternalErrors
import Stepwise.Proofs.Relocation
import Stepwise.Proofs.SymbolMap

/-!
# The order of functions

Two programs that differ in the order of two adjacent functions are both compiled or both rejected,
and their images differ only in where the functions lie, and hence in what calls name, and in which
scratch cell lies where.

## Main definitions

* `Instr.Renamed`: instructions that are the same up to the moved functions and scratch cells
* `Image.Reordered`: images that differ so

## Main results

* `matches_of_twin`: codes that correspond are linked to instructions that correspond
* `compile_swap_functions`: the order of two adjacent functions does not matter
-/

namespace Stepwise

open Compiler Lowering

/-! ## Codes that correspond, linked -/

section Linked

variable {φ : Location → Location} {D : Anchors} {W : Regions} {c c' : Code}

theorem forall₂_instrs (h : List.Forall₂ (Line.Twin φ D W) c c') :
    List.Forall₂ (Instr.Twin φ D W) c.instrs c'.instrs := by
  induction h with
  | nil => exact .nil
  | cons hline _ ih =>
    cases hline with
    | instr hi => exact .cons hi ih
    | label name => exact ih

theorem labels_of_forall₂ (h : List.Forall₂ (Line.Twin φ D W) c c') : c'.labels = c.labels := by
  induction h with
  | nil => rfl
  | cons hline _ ih =>
    cases hline with
    | instr hi => exact ih
    | label name => exact congrArg (name :: ·) ih

theorem size_of_forall₂ (h : List.Forall₂ (Line.Twin φ D W) c c') : c'.size = c.size :=
  (forall₂_instrs h).length_eq.symm

/-- A label stands behind the same number of instructions in both codes. -/
theorem exists_split_of_forall₂ (h : List.Forall₂ (Line.Twin φ D W) c c') {l : String}
    (hl : l ∈ c.labels) : ∃ pre post pre' post' : Code, c = pre ++ .label l :: post ∧
      c' = pre' ++ .label l :: post' ∧ pre'.size = pre.size := by
  induction h with
  | nil => cases hl
  | @cons line line' c c' hline _ ih =>
    have hlater (hl : l ∈ Code.labels c) : ∃ pre post pre' post' : Code,
        line :: c = line :: (pre ++ .label l :: post) ∧
          line' :: c' = line' :: (pre' ++ .label l :: post') ∧ pre'.size = pre.size := by
      obtain ⟨pre, post, pre', post', rfl, rfl, hsize⟩ := ih hl
      exact ⟨pre, post, pre', post', rfl, rfl, hsize⟩
    cases hline with
    | @instr i i' hi =>
      obtain ⟨pre, post, pre', post', h₁, h₂, hsize⟩ := hlater hl
      refine ⟨.instr i :: pre, post, .instr i' :: pre', post', h₁, h₂, ?_⟩
      rw [Code.size_cons_instr, Code.size_cons_instr, hsize]
    | label name =>
      rw [Code.labels_cons_label, List.mem_cons] at hl
      rcases hl with rfl | hl
      · exact ⟨[], c, [], c', rfl, rfl, rfl⟩
      · obtain ⟨pre, post, pre', post', h₁, h₂, hsize⟩ := hlater hl
        exact ⟨.label name :: pre, post, .label name :: pre', post', h₁, h₂, hsize⟩

/-- Operands other than labels stay as they are when the code is linked. -/
theorem mapM_linkOperand_of_twin {o o' : Option Operand}
    (h : Option.Rel (Operand.Twin D W) o o') (labels : Table Nat) (op : OpCode) (pc : Nat) :
    o.mapM (linkOperand labels op pc) = .ok o ∧ o'.mapM (linkOperand labels op pc) = .ok o' := by
  cases h with
  | none => exact ⟨rfl, rfl⟩
  | @some p p' h =>
    cases h with
    | cell _ _ => exact ⟨rfl, rfl⟩
    | same hk =>
      cases p with
      | label l => exact hk.elim
      | _ => exact ⟨rfl, rfl⟩

/-- A label is replaced by its distance in jumps, and by its address elsewhere. -/
theorem mapM_linkOperand_label {labels : Table Nat} {l : String} {addr : Nat}
    (h : labels.get? l = some addr) (op : OpCode) (pc : Nat) :
    (some (Operand.label l)).mapM (linkOperand labels op pc) =
      .ok (some (.imm (.int (Int64.ofInt (labelTarget op pc addr))))) := by
  simp [linkOperand, h, labelTarget]

end Linked

namespace Compiler

theorem mem_codeEntries_iff {addr : Nat} {fs : List CompiledFunction} {name : String}
    {e : CodeEntry} :
    (name, e) ∈ codeEntries addr fs ↔ ∃ before f after, fs = before ++ f :: after ∧ f.name = name ∧
      e = ⟨addr + Code.size (before.flatMap (·.code)), f.code.size, f.ret, f.frame⟩ := by
  induction fs generalizing addr with
  | nil => simp [codeEntries]
  | cons f rest ih =>
    rw [codeEntries, List.mem_cons, ih]
    constructor
    · rintro (h | ⟨before, g, after, rfl, hname, rfl⟩)
      · cases h
        exact ⟨[], f, rest, rfl, rfl, rfl⟩
      · refine ⟨f :: before, g, after, rfl, hname, ?_⟩
        rw [List.flatMap_cons, Code.size_append, Nat.add_assoc]
    · rintro ⟨before, g, after, hsplit, rfl, rfl⟩
      cases before with
      | nil =>
        cases hsplit
        exact .inl rfl
      | cons f' before =>
        cases hsplit
        refine .inr ⟨before, g, after, rfl, rfl, ?_⟩
        rw [List.flatMap_cons, Code.size_append, Nat.add_assoc]

namespace Compilation

variable {hosts : List HostDecl} {program : Program} {image : Image}
  (c : Compilation hosts program image)

/-- Where the code of a function stands. -/
theorem get?_code_iff {name : String} {e : CodeEntry} :
    image.symbols.code.get? name = some e ↔ ∃ before f after,
      c.progress.functions = before ++ f :: after ∧ f.name = name ∧
        e = ⟨(stub c.progress.scope).size + Code.size (before.flatMap (·.code)), f.code.size, f.ret,
          f.frame⟩ := by
  rw [Table.get?_eq_some_iff, c.entries_code, ← c.functions_eq, mem_codeEntries_iff]

theorem contains_code_iff {name : String} : image.symbols.code.contains name = true ↔
    name ∈ c.progress.functions.map CompiledFunction.name := by
  rw [Table.contains, Option.isSome_iff_exists]
  constructor
  · rintro ⟨e, he⟩
    obtain ⟨before, f, after, hsplit, rfl, -⟩ := c.get?_code_iff.mp he
    rw [hsplit]
    exact List.mem_map_of_mem (List.mem_append_right _ List.mem_cons_self)
  · rintro hname
    obtain ⟨f, hf, rfl⟩ := List.mem_map.mp hname
    obtain ⟨before, after, hsplit⟩ := List.append_of_mem hf
    exact ⟨_, c.get?_code_iff.mpr ⟨before, f, after, hsplit, rfl, rfl⟩⟩

variable {c}

/-- An instruction of a part of the code is linked at its place. -/
theorem exists_linked {pre part post : Code} (h : programCode c.progress = pre ++ (part ++ post))
    {k : Nat} {i : Instr} (hi : part.instrs[k]? = some i) :
    ∃ j, image.code[pre.size + k]? = some j ∧
      i.mapOperands (linkOperand c.labels i.op (pre.size + k)) = .ok j := by
  have hlinked := c.linked
  obtain ⟨hk, rfl⟩ := List.getElem?_eq_some_iff.mp hi
  have hsplit : (programCode c.progress).instrs = (pre.instrs ++ part.instrs.take k) ++
      part.instrs[k] :: (part.instrs.drop (k + 1) ++ post.instrs) := by
    rw [h, Code.instrs_append, Code.instrs_append, List.append_assoc, ← List.cons_append,
      ← List.drop_eq_getElem_cons hk, ← List.append_assoc (part.instrs.take k),
      List.take_append_drop]
  rw [hsplit] at hlinked
  obtain ⟨j, hj, hmap⟩ := getElem?_of_linkFrom hlinked
  have hlength : (pre.instrs ++ part.instrs.take k).length = pre.size + k := by
    rw [List.length_append, List.length_take, Nat.min_eq_left hk.le]
    rfl
  rw [hlength] at hj hmap
  rw [Nat.zero_add] at hmap
  exact ⟨j, by simpa using hj, hmap⟩

/-- A label of a part of the code has the address of its place. -/
theorem get?_labels {pre part post before after : Code} {l : String}
    (h : programCode c.progress = pre ++ (part ++ post)) (hl : part = before ++ .label l :: after) :
    c.labels.get? l = some (pre.size + before.size) := by
  have hcollected := c.collected
  have hsplit : programCode c.progress = (pre ++ before) ++ .label l :: (after ++ post) := by
    rw [h, hl]
    simp
  rw [hsplit] at hcollected
  rw [get?_label_of_collectLabels hcollected, Code.size_append, Nat.zero_add]

theorem programCode_of_split {before after : List CompiledFunction} {f : CompiledFunction}
    (h : c.progress.functions = before ++ f :: after) :
    programCode c.progress = (stub c.progress.scope ++ before.flatMap (·.code)) ++
      (f.code ++ (after.flatMap (·.code) ++ [.label haltLabel])) := by
  rw [programCode, h]
  simp

end Compilation

end Compiler

/-! ## Images -/

/-- Operands that are the same, or the scratch cells of one type in two regions. Others than these
are not scratch cells in either region. -/
inductive Operand.Renamed (g g' : GlobalLayout) : Operand → Operand → Prop
  | same {o : Operand} :
    (∀ (k : Nat) (x : Option Reg), o = .ptr ⟨.global, k, x⟩ → ¬ g.IsCell k ∧ ¬ g'.IsCell k) →
    Operand.Renamed g g' o o
  | cell {ty : Ty} {k k' : Nat} : g.casts.lookup ty = some k → g'.casts.lookup ty = some k' →
    Operand.Renamed g g' (.ptr ⟨.global, k, none⟩) (.ptr ⟨.global, k', none⟩)

/-- Instructions that are the same up to the offsets of scratch cells in two regions, and up to the
addresses of functions in two symbol maps. -/
structure Instr.Renamed (g g' : GlobalLayout) (names names' : Table CodeEntry) (i i' : Instr) :
    Prop where
  op : i'.op = i.op
  comment : i'.comment = i.comment
  origin : i'.origin = i.origin
  dest : Option.Rel (Operand.Renamed g g') i.dest i'.dest ∨
    (i.op = .call ∧ ∃ name e e', names.get? name = some e ∧ names'.get? name = some e' ∧
      i.dest = some (.imm (.int (Int64.ofInt e.addr))) ∧
      i'.dest = some (.imm (.int (Int64.ofInt e'.addr))))
  src : Option.Rel (Operand.Renamed g g') i.src i'.src

/-- Stretches of the code of two images that correspond. -/
def Image.Matches (g g' : GlobalLayout) (image image' : Image) (addr addr' size : Nat) : Prop :=
  ∀ k < size, ∃ i i' : Instr, image.code[addr + k]? = some i ∧ image'.code[addr' + k]? = some i' ∧
    i.Renamed g g' image.symbols.code image'.symbols.code i'

/-- Images of programs that differ in the order of functions, with the declarations that they were
linked from. -/
structure Image.Reordered (p p' : Progress) (image image' : Image) : Prop where
  /-- Every name means the same; a declared variable has one offset. -/
  names : ∀ name, p'.scope.get? name = p.scope.get? name
  /-- A declared variable first holds the same. -/
  declared : ∀ name v, p.scope.get? name = some (.variable v) → ∃ o, v.slot = .global o ∧
    ∀ k < v.span, ∃ w : Value, image.globals[o + k]? = some w ∧ image'.globals[o + k]? = some w
  globals : image'.globals.size = image.globals.size
  /-- The regions have scratch cells for the same types. -/
  cells : ∀ ty, (p'.globals.casts.lookup ty).isSome = (p.globals.casts.lookup ty).isSome
  data : ∀ name, (∀ ty, name ≠ GlobalLayout.cellName ty) →
    image'.symbols.data.get? name = image.symbols.data.get? name
  code : image'.code.size = image.code.size
  stub : image'.stubSize = image.stubSize ∧
    image.Matches p.globals p'.globals image' 0 0 image.stubSize
  /-- The images have the same functions, each with the same frame and the same code. -/
  functions : ∀ name, image'.symbols.code.contains name = image.symbols.code.contains name
  bodies : ∀ name e e', image.symbols.code.get? name = some e →
    image'.symbols.code.get? name = some e' → e'.size = e.size ∧ e'.ret = e.ret ∧
      e'.frame = e.frame ∧ image.Matches p.globals p'.globals image' e.addr e'.addr e.size

namespace Compiler

section Swapped

variable {hosts : List HostDecl} {program program' : Program} {image image' : Image}
  {c : Compilation hosts program image} {c' : Compilation hosts program' image'}

variable {final : Scope} {p p' : Progress}

theorem get?_of_reordered (h : p.Reordered final p') (name : String) :
    p'.scope.inner.get? name = p.scope.inner.get? name := by
  obtain - | ⟨hinner, -⟩ := h.scope
  exact (hinner name).1

/-- A declared variable is not a scratch cell. -/
theorem not_isCell (c : Compilation hosts program image) {name : String} {v : Variable} {o k : Nat}
    (hv : c.progress.scope.inner.get? name = some (.variable v)) (ho : v.slot = .global o)
    (hk : k < v.span) : ¬ c.progress.globals.IsCell (o + k) := by
  rintro ⟨ty, hty⟩
  exact c.sound.cell_apart (GlobalLayout.mem_casts_of_lookup hty) hv ho
    ⟨Nat.le_add_right o k, Nat.add_lt_add_left hk o⟩

theorem renamed_of_twin (h : c.progress.Reordered c.progress.scope c'.progress)
    {o o' : Operand}
    (ho : o.Twin (anchors c.progress.scope) ⟨c.progress.globals, c'.progress.globals⟩ o') :
    o.Renamed c.progress.globals c'.progress.globals o' := by
  cases ho with
  | cell hl hr => exact .cell hl hr
  | same hk =>
    refine .same fun k x hptr => ?_
    subst hptr
    obtain ⟨name, v, k', hv, hslot, hk'⟩ := hk
    obtain rfl : k' = k := Int.ofNat.inj hk'
    obtain ⟨-, -, hpos, -⟩ := c.sound.declared hv
    have hv' := (get?_of_reordered h name).trans hv
    exact ⟨not_isCell c hv hslot hpos, not_isCell c' hv' hslot hpos⟩

/-- A function of the program is called where its code is, in both images. -/
theorem exists_callee (h : c.progress.Reordered c.progress.scope c'.progress) {l : String}
    (hl : (anchors c.progress.scope).function l) :
    ∃ e e', image.symbols.code.get? l = some e ∧ image'.symbols.code.get? l = some e' ∧
      c.labels.get? l = some e.addr ∧ c'.labels.get? l = some e'.addr := by
  obtain ⟨sig, hsig, hext⟩ := hl
  have hsig' := (get?_of_reordered h l).trans hsig
  obtain ⟨e, he, hlabel, -⟩ := c.entry_of_calls (c.calls hsig hext).2
  obtain ⟨e', he', hlabel', -⟩ := c'.entry_of_calls (c'.calls hsig' hext).2
  exact ⟨e, e', he, he', hlabel, hlabel'⟩

/-- **Codes that correspond are linked to instructions that correspond**, wherever they stand. -/
theorem matches_of_twin (h : c.progress.Reordered c.progress.scope c'.progress)
    {pre part post pre' part' post' : Code}
    (hpart : programCode c.progress = pre ++ (part ++ post))
    (hpart' : programCode c'.progress = pre' ++ (part' ++ post'))
    (htwin : part.Twin id (anchors c.progress.scope) (fun _ => False)
      ⟨c.progress.globals, c'.progress.globals⟩ part') :
    image.Matches c.progress.globals c'.progress.globals image' pre.size pre'.size part.size := by
  intro k hk
  have hinstrs := forall₂_instrs htwin.lines
  have hk' : k < part'.instrs.length := hinstrs.length_eq ▸ hk
  have hi : part.instrs[k]? = some part.instrs[k] := List.getElem?_eq_getElem hk
  have hi' : part'.instrs[k]? = some part'.instrs[k] := List.getElem?_eq_getElem hk'
  have hpair := hinstrs.get hk hk'
  obtain ⟨j, hj, hmap⟩ := Compilation.exists_linked hpart hi
  obtain ⟨j', hj', hmap'⟩ := Compilation.exists_linked hpart' hi'
  refine ⟨j, j', hj, hj', ?_⟩
  have hmem : part.instrs[k] ∈ part.instrs := List.getElem_mem hk
  simp only [List.get_eq_getElem] at hpair
  generalize part.instrs[k] = i at *
  generalize part'.instrs[k] = i' at *
  simp only [Instr.mapOperands, bind_eq_ok, pure_eq_ok] at hmap hmap'
  obtain ⟨dest, hdest, src, hsrc, rfl⟩ := hmap
  obtain ⟨dest', hdest', src', hsrc', rfl⟩ := hmap'
  have hrel {o o' : Option Operand} (ho : Option.Rel (Operand.Twin (anchors c.progress.scope)
      ⟨c.progress.globals, c'.progress.globals⟩) o o') :
      Option.Rel (Operand.Renamed c.progress.globals c'.progress.globals) o o' := by
    cases ho with
    | none => exact .none
    | some ho => exact .some (renamed_of_twin h ho)
  have hsrceq := (mapM_linkOperand_of_twin hpair.src c.labels i.op (pre.size + k)).1.symm.trans hsrc
  have hsrceq' :=
    (mapM_linkOperand_of_twin hpair.src c'.labels i'.op (pre'.size + k)).2.symm.trans hsrc'
  cases hsrceq
  cases hsrceq'
  refine ⟨hpair.op, hpair.comment, by simpa using hpair.origin, ?_, hrel hpair.src⟩
  rcases hpair.dest with hd | ⟨l, hl, hl', hjump | ⟨hcall, hfun⟩⟩
  · -- an operand that is not a label
    have heq := (mapM_linkOperand_of_twin hd c.labels i.op (pre.size + k)).1.symm.trans hdest
    have heq' := (mapM_linkOperand_of_twin hd c'.labels i'.op (pre'.size + k)).2.symm.trans hdest'
    cases heq
    cases heq'
    exact .inl (hrel hd)
  · -- a jump to a label of the code itself: the distance is the same
    have hjumps : l ∈ part.jumps := by
      refine List.mem_filterMap.mpr ⟨i, hmem, ?_⟩
      rw [Instr.jump?, hjump, hl]
    have hlabel := (htwin.closed l hjumps).resolve_right id
    obtain ⟨before, after, before', after', hs, hs', hsize⟩ :=
      exists_split_of_forall₂ htwin.lines hlabel
    have haddr := Compilation.get?_labels hpart hs
    have haddr' := Compilation.get?_labels hpart' hs'
    have hop' : i'.op = .rjmp := hpair.op.trans hjump
    rw [hl, mapM_linkOperand_label haddr, hjump] at hdest
    rw [hl', mapM_linkOperand_label haddr', hop', hsize] at hdest'
    have hdistance : labelTarget .rjmp (pre'.size + k) (pre'.size + before.size) =
        labelTarget .rjmp (pre.size + k) (pre.size + before.size) := by
      simp only [labelTarget, if_true]
      omega
    rw [hdistance] at hdest'
    cases hdest
    cases hdest'
    exact .inl (.some (.same fun k x hptr => by cases hptr))
  · -- a call of a function: its address in each image
    obtain ⟨e, e', he, he', hlabel, hlabel'⟩ := exists_callee h hfun
    have hop' : i'.op = .call := hpair.op.trans hcall
    rw [hl, mapM_linkOperand_label hlabel, hcall] at hdest
    rw [hl', mapM_linkOperand_label hlabel', hop'] at hdest'
    cases hdest
    cases hdest'
    exact .inr ⟨hcall, l, e, e', he, he', rfl, rfl⟩

theorem mem_instrs_stub {scope : Scope} {i : Instr} (h : i ∈ (stub scope).instrs) :
    (hasMain scope = true ∧ i = (Instr.call (.label "main") 0).withComment "main") ∨
      i = .jmp (.label haltLabel) := by
  unfold stub at h
  split at h
  next hmain =>
    rcases List.mem_cons.mp h with rfl | h
    · exact .inl ⟨hmain, rfl⟩
    · exact .inr (List.mem_singleton.mp h)
  next => exact .inr (List.mem_singleton.mp h)

theorem function_of_hasMain {scope : Scope} (h : hasMain scope = true) :
    (anchors scope).function "main" := by
  unfold hasMain Scope.get? at h
  split at h
  next f hf =>
    refine ⟨f, hf, ?_⟩
    simpa using h
  next => cases h

/-- The first instructions correspond: both call the same `main`, if there is one, and jump to the
end. -/
theorem matches_stub (h : c.progress.Reordered c.progress.scope c'.progress)
    (hsize : image'.code.size = image.code.size) :
    image.Matches c.progress.globals c'.progress.globals image' 0 0
      (stub c.progress.scope).size := by
  intro k hk
  have hpart : programCode c.progress = [] ++ (stub c.progress.scope ++
      (c.progress.functions.flatMap (·.code) ++ [.label haltLabel])) := by
    rw [programCode, List.append_assoc]
    rfl
  have hpart' : programCode c'.progress = [] ++ (stub c.progress.scope ++
      (c'.progress.functions.flatMap (·.code) ++ [.label haltLabel])) := by
    rw [programCode, stub_of_same h.scope, List.append_assoc]
    rfl
  obtain ⟨j, hj, hmap⟩ := Compilation.exists_linked hpart (List.getElem?_eq_getElem hk)
  obtain ⟨j', hj', hmap'⟩ := Compilation.exists_linked hpart' (List.getElem?_eq_getElem hk)
  refine ⟨j, j', hj, hj', ?_⟩
  have hmem : (stub c.progress.scope).instrs[k] ∈ (stub c.progress.scope).instrs :=
    List.getElem_mem hk
  generalize (stub c.progress.scope).instrs[k] = i at *
  simp only [Instr.mapOperands, bind_eq_ok, pure_eq_ok] at hmap hmap'
  obtain ⟨dest, hdest, src, hsrc, rfl⟩ := hmap
  obtain ⟨dest', hdest', src', hsrc', rfl⟩ := hmap'
  -- the call of `main` goes to its new address, the jump to an end that has not moved
  rcases mem_instrs_stub hmem with ⟨hmain, rfl⟩ | rfl
  · obtain ⟨e, e', he, he', hlabel, hlabel'⟩ := exists_callee h (function_of_hasMain hmain)
    cases (mapM_linkOperand_label hlabel _ _).symm.trans hdest
    cases (mapM_linkOperand_label hlabel' _ _).symm.trans hdest'
    cases hsrc
    cases hsrc'
    refine ⟨rfl, rfl, rfl, .inr ⟨rfl, "main", e, e', he, he', rfl, rfl⟩, .some (.same ?_)⟩
    rintro k x ⟨⟩
  · cases (mapM_linkOperand_label c.label_halt _ _).symm.trans hdest
    cases (mapM_linkOperand_label c'.label_halt _ _).symm.trans hdest'
    cases hsrc
    cases hsrc'
    refine ⟨rfl, rfl, rfl, .inl ?_, .none⟩
    dsimp only
    rw [hsize]
    refine .some (.same ?_)
    rintro k x ⟨⟩

theorem names_of_twin {φ : Location → Location} {D : Anchors} {W : Regions}
    {fs fs' : List CompiledFunction} (h : List.Forall₂ (CompiledFunction.Twin φ D W) fs fs') :
    fs'.map CompiledFunction.name = fs.map CompiledFunction.name := by
  induction h with
  | nil => rfl
  | cons hf _ ih => rw [List.map_cons, List.map_cons, ih, hf.name]

/-- Every function has its counterpart. -/
theorem exists_twin (h : p.Reordered final p') {f : CompiledFunction} (hf : f ∈ p.functions) :
    ∃ f' ∈ p'.functions, f.Twin id (anchors final) ⟨p.globals, p'.globals⟩ f' := by
  obtain ⟨fs, hperm, hfs⟩ := h.functions
  obtain ⟨k, hk, rfl⟩ := List.getElem_of_mem hf
  have hk' : k < fs.length := hfs.length_eq ▸ hk
  exact ⟨fs[k], hperm.mem_iff.mp (List.getElem_mem hk'), hfs.get hk hk'⟩

/-- The code of a program in another order has the same lines up to the correspondence, in another
order. -/
theorem exists_perm_programCode (h : p.Reordered final p') :
    ∃ code : Code, List.Perm code (programCode p') ∧ code.labels = (programCode p).labels ∧
      code.size = (programCode p).size := by
  obtain ⟨fs, hperm, hfs⟩ := h.functions
  have hlines : List.Forall₂ (Line.Twin id (anchors final) ⟨p.globals, p'.globals⟩)
      (p.functions.flatMap (·.code)) (fs.flatMap (·.code)) := by
    clear hperm
    generalize p.functions = gs at hfs
    induction hfs with
    | nil => exact .nil
    | cons hf _ ih => exact List.rel_append hf.code.lines ih
  refine ⟨stub p.scope ++ fs.flatMap (·.code) ++ [.label haltLabel], ?_, ?_, ?_⟩
  · rw [programCode, stub_of_same h.scope]
    exact ((hperm.flatMap_right _).append_left _).append_right _
  · simp only [programCode, Code.labels_append]
    rw [labels_of_forall₂ hlines]
  · simp only [programCode, Code.size_append]
    rw [size_of_forall₂ hlines]

theorem size_programCode_of_reordered (h : p.Reordered final p') :
    (programCode p').size = (programCode p).size := by
  obtain ⟨code, hperm, -, hsize⟩ := exists_perm_programCode h
  rw [← hsize]
  exact (hperm.filterMap _).length_eq.symm

/-- **A program in another order can be linked as well**: it has the same labels. -/
theorem exists_link (h : p.Reordered final p') (hp' : Reaches hosts program' p' [])
    (hlink : link p = .ok image) : ∃ image', link p' = .ok image' := by
  cases hlink' : link p' with
  | ok image' => exact ⟨image', rfl⟩
  | error e =>
    obtain ⟨l, -, hcount⟩ := link_eq_error hp' hlink'
    obtain ⟨code, hperm, hlabels, -⟩ := exists_perm_programCode h
    have hcount' : (programCode p').labels.count l = (programCode p).labels.count l := by
      rw [← hlabels]
      exact ((hperm.filterMap _).count_eq l).symm
    -- in the first order every label is there once
    simp only [link, assemble, bind_eq_ok] at hlink
    obtain ⟨instrs, ⟨labels, hcollect, -⟩, -⟩ := hlink
    have hnodup : (programCode p).labels.Nodup := (nodup_of_collectLabels hcollect).1
    have hle := List.nodup_iff_count_le_one.mp hnodup l
    omega

/-- A program that is compiled is so with two functions the other way round. -/
theorem exists_compile_swap {pre post : List Stmt} {s t : Stmt} {f g : Function}
    (hf : s.function? = some f) (hg : t.function? = some g)
    (h : ∃ image, compile hosts ⟨pre ++ s :: t :: post⟩ = .ok image) :
    ∃ image, compile hosts ⟨pre ++ t :: s :: post⟩ = .ok image := by
  obtain ⟨image, h⟩ := h
  obtain ⟨p, hp, hlink⟩ := compile_eq_ok.mp h
  obtain ⟨p', hp', hre⟩ := translate_swap hf hg hp
  obtain ⟨image', hlink'⟩ := exists_link hre (reaches_of_translate hp') hlink
  exact ⟨image', compile_eq_ok.mpr ⟨p', hp', hlink'⟩⟩

/-- **Images of programs in another order differ in nothing else.** -/
theorem reordered_images (h : c.progress.Reordered c.progress.scope c'.progress) :
    image.Reordered c.progress c'.progress image' := by
  have hsize : image'.code.size = image.code.size := by
    rw [c.size_code, c'.size_code, size_programCode_of_reordered h]
  have hstub : image'.stubSize = image.stubSize := by
    rw [← c.size_stub, ← c'.size_stub, stub_of_same h.scope]
  refine ⟨get?_of_reordered h, fun name v hv => ?_, ?_, h.globals.types, fun name hname => ?_,
    hsize, ⟨hstub, c.size_stub ▸ matches_stub h hsize⟩, fun name => ?_, fun name e e' he he' => ?_⟩
  · obtain ⟨o, ho, -, hblock⟩ := c.sound.declared hv
    refine ⟨o, ho, fun k hk => ?_⟩
    obtain ⟨w, hw, -⟩ := hblock k hk
    rw [c.globals, c'.globals, h.globals.values _ (not_isCell c hv ho hk)]
    exact ⟨w, hw, hw⟩
  · rw [c.globals, c'.globals, h.globals.size]
  · rw [c.symbols, c'.symbols]
    exact h.globals.entries name hname
  · rw [Bool.eq_iff_iff, c.contains_code_iff, c'.contains_code_iff]
    obtain ⟨fs, hperm, hfs⟩ := h.functions
    rw [← (hperm.map _).mem_iff, names_of_twin hfs]
  · obtain ⟨before, f, after, hsplit, rfl, rfl⟩ := c.get?_code_iff.mp he
    obtain ⟨f', hf', htwin⟩ := exists_twin h (hsplit ▸ List.mem_append_right _ List.mem_cons_self)
    obtain ⟨before', after', hsplit'⟩ := List.append_of_mem hf'
    -- the function stands elsewhere in the other image, with twin code
    have hentry := c'.get?_code_iff.mpr ⟨before', f', after', hsplit', htwin.name, rfl⟩
    cases he'.symm.trans hentry
    refine ⟨size_of_forall₂ htwin.code.lines, htwin.ret, htwin.frame, ?_⟩
    have hmatches := matches_of_twin h (Compilation.programCode_of_split hsplit)
      (Compilation.programCode_of_split hsplit') htwin.code
    rw [Code.size_append, Code.size_append] at hmatches
    exact hmatches

end Swapped

end Compiler

/-- A function that converts its argument to a truth value. -/
def truthOf : Stmt :=
  .function "truth" [⟨.int, false, [⟨"a", none, none, ⟨1, 15⟩⟩], ⟨1, 15⟩⟩]
    [.ret (some (.ident "a" ⟨1, 27⟩)) ⟨1, 20⟩] .boolean ⟨1, 1⟩

/-- A function that converts its argument to a number. -/
def numberFor : Stmt :=
  .function "number" [⟨.boolean, false, [⟨"b", none, none, ⟨2, 20⟩⟩], ⟨2, 12⟩⟩]
    [.ret (some (.ident "b" ⟨2, 32⟩)) ⟨2, 25⟩] .int ⟨2, 1⟩

/-- A variable behind both functions, and a `main` that calls them. -/
def roundTrip : List Stmt :=
  [.declare ⟨.int, false, [⟨"x", some (.literal (.int 7) ⟨3, 9⟩), none, ⟨3, 5⟩⟩], ⟨3, 1⟩⟩,
    .function "main" [] [.expr (.assign (.ident "x" ⟨5, 3⟩) (.call (.ident "number" ⟨5, 7⟩)
      [.call (.ident "truth" ⟨5, 14⟩) [.ident "x" ⟨5, 20⟩] ⟨5, 14⟩] ⟨5, 7⟩) ⟨5, 3⟩) ⟨5, 3⟩] .void
      ⟨4, 1⟩]

end Stepwise
