import Mathlib
import Stepwise.Proofs.InternalErrors

/-!
# Exact linking

What assembly does with any list of lines, said without tables: it refuses the first label that is
there twice; if there is none, it refuses the first operand with a label that is not there; and
otherwise every label gives way to the number of instructions in front of its line, or to the
distance to it in a relative jump, and nothing else changes.

## Main definitions

* `Code.DefinesAt`, `Code.RepeatsFirst`, `Code.MissesFirst`: where labels stand and what is wrong
  with them
* `Code.Links`, `Code.LinksInstr`: an operand and an instruction with addresses in the place of
  labels
* `Code.Assembles`: the result of assembly

## Main results

* `exact_linking`: assembly has exactly the result that is prescribed, and what is left without a
  place is found at the first instruction that has a variable
-/

namespace Stepwise

namespace Code

/-! ## What the lines prescribe -/

/-- A line of the code is this label, with so many instructions in front of it. -/
def DefinesAt (code : Code) (l : String) (addr : Nat) : Prop :=
  ∃ pre post, code = pre ++ .label l :: post ∧ addr = size pre

/-- The first label that repeats the name of an earlier one. -/
def RepeatsFirst (code : Code) (l : String) : Prop :=
  ∃ pre post, code = pre ++ .label l :: post ∧ l ∈ labels pre ∧ (labels pre).Nodup

/-- The operands of the instructions in their order, the destination first. -/
def operands (code : Code) : List Operand := code.instrs.flatMap Instr.operands

/-- The first operand with a label that no line has. -/
def MissesFirst (code : Code) (l : String) : Prop :=
  ∃ pre post, code.operands = pre ++ .label l :: post ∧ l ∉ code.labels ∧
    ∀ l', .label l' ∈ pre → l' ∈ code.labels

/-- An operand of an instruction at `pc` with an address in the place of a label. -/
inductive Links (code : Code) (op : OpCode) (pc : Nat) : Operand → Operand → Prop
  | label {l : String} {addr : Nat} {t : Int64} : code.DefinesAt l addr → addr ≤ code.size →
    t = Int64.ofInt (if op = .rjmp then (addr : Int) - pc else addr) →
    (code.size < 2 ^ 63 → t.toInt = if op = .rjmp then (addr : Int) - pc else addr) →
    Links code op pc (.label l) (.imm (.int t))
  | other {o : Operand} : (∀ l, o ≠ .label l) → Links code op pc o o

/-- An instruction at `pc` with addresses in the place of labels. -/
structure LinksInstr (code : Code) (pc : Nat) (i j : Instr) : Prop where
  op : j.op = i.op
  dest : Option.Rel (code.Links i.op pc) i.dest j.dest
  src : Option.Rel (code.Links i.op pc) i.src j.src
  comment : j.comment = i.comment
  origin : j.origin = i.origin

/-- The result of assembly. -/
inductive Assembles (code : Code) : Except InternalError (List Instr) → Prop
  | repeated {l : String} : code.RepeatsFirst l → Assembles code (.error (.labelRedefinition l))
  | missed {l : String} : code.labels.Nodup → code.MissesFirst l →
    Assembles code (.error (.undefinedLabel l))
  | linked {js : List Instr} : code.labels.Nodup →
    (∀ l, .label l ∈ code.operands → l ∈ code.labels) → js.length = code.size →
    (∀ (pc : Nat) (i j : Instr), code.instrs[pc]? = some i → js[pc]? = some j →
      code.LinksInstr pc i j) → Assembles code (.ok js)

variable {code : Code} {l l' : String} {addr addr' : Nat}

theorem DefinesAt.mem_labels (h : code.DefinesAt l addr) : l ∈ code.labels := by
  obtain ⟨pre, post, rfl, -⟩ := h
  simp

theorem DefinesAt.le_size (h : code.DefinesAt l addr) : addr ≤ code.size := by
  obtain ⟨pre, post, rfl, rfl⟩ := h
  rw [size_append]
  exact Nat.le_add_right _ _

/-! ## One result -/

/-- Two places of one list are the same, or one is in front of the other. -/
theorem eq_or_mem_of_append_eq {α : Type} {pre pre' post post' : List α} {a b : α}
    (h : pre ++ a :: post = pre' ++ b :: post') :
    (pre = pre' ∧ a = b) ∨ (∃ mid, pre' = pre ++ a :: mid) ∨ ∃ mid, pre = pre' ++ b :: mid := by
  rcases List.append_eq_append_iff.mp h with ⟨mid, rfl, hmid⟩ | ⟨mid, rfl, hmid⟩
  · cases mid with
    | nil =>
      simp only [List.nil_append, List.cons.injEq] at hmid
      exact .inl ⟨by simp, hmid.1⟩
    | cons c mid =>
      obtain ⟨rfl, -⟩ := List.cons.inj hmid
      exact .inr (.inl ⟨mid, rfl⟩)
  · cases mid with
    | nil =>
      simp only [List.nil_append, List.cons.injEq] at hmid
      exact .inl ⟨by simp, hmid.1.symm⟩
    | cons c mid =>
      obtain ⟨rfl, -⟩ := List.cons.inj hmid
      exact .inr (.inr ⟨mid, rfl⟩)

theorem RepeatsFirst.not_nodup (h : code.RepeatsFirst l) : ¬ code.labels.Nodup := by
  obtain ⟨pre, post, rfl, hmem, -⟩ := h
  intro hnodup
  rw [labels_append, labels_cons_label] at hnodup
  exact (List.disjoint_of_nodup_append hnodup) hmem List.mem_cons_self

theorem RepeatsFirst.unique (h : code.RepeatsFirst l) (h' : code.RepeatsFirst l') : l = l' := by
  obtain ⟨pre, post, rfl, hmem, hnodup⟩ := h
  obtain ⟨pre', post', heq, hmem', hnodup'⟩ := h'
  rcases eq_or_mem_of_append_eq heq with ⟨-, hl⟩ | ⟨mid, rfl⟩ | ⟨mid, rfl⟩
  · exact Line.label.inj hl
  · exact absurd hnodup' (RepeatsFirst.not_nodup ⟨pre, mid, rfl, hmem, hnodup⟩)
  · exact absurd hnodup (RepeatsFirst.not_nodup ⟨pre', mid, rfl, hmem', hnodup'⟩)

theorem MissesFirst.exists (h : code.MissesFirst l) :
    ∃ l, .label l ∈ code.operands ∧ l ∉ code.labels := by
  obtain ⟨pre, post, heq, hnot, -⟩ := h
  exact ⟨l, by simp [heq], hnot⟩

theorem MissesFirst.unique (h : code.MissesFirst l) (h' : code.MissesFirst l') : l = l' := by
  obtain ⟨pre, post, heq, hnot, hbefore⟩ := h
  obtain ⟨pre', post', heq', hnot', hbefore'⟩ := h'
  rcases eq_or_mem_of_append_eq (heq.symm.trans heq') with ⟨-, hl⟩ | ⟨mid, rfl⟩ | ⟨mid, rfl⟩
  · exact Operand.label.inj hl
  · exact absurd (hbefore' l (by simp)) hnot
  · exact absurd (hbefore l' (by simp)) hnot'

theorem DefinesAt.unique (hnodup : code.labels.Nodup) (h : code.DefinesAt l addr)
    (h' : code.DefinesAt l addr') : addr = addr' := by
  obtain ⟨pre, post, rfl, rfl⟩ := h
  obtain ⟨pre', post', heq, rfl⟩ := h'
  have hnot {pre post mid : Code} (hc : (labels (pre ++ .label l :: mid ++ .label l :: post)).Nodup) :
      False := by
    simp only [labels_append, labels_cons_label] at hc
    exact (List.disjoint_of_nodup_append hc) (by simp) List.mem_cons_self
  rcases eq_or_mem_of_append_eq heq with ⟨rfl, -⟩ | ⟨mid, rfl⟩ | ⟨mid, rfl⟩
  · rfl
  · rw [heq] at hnodup
    exact (hnot hnodup).elim
  · exact (hnot hnodup).elim

theorem Links.unique (hnodup : code.labels.Nodup) {op : OpCode} {pc : Nat} {o p q : Operand}
    (h : code.Links op pc o p) (h' : code.Links op pc o q) : p = q := by
  cases h with
  | label hat hle ht =>
    cases h' with
    | label hat' hle' ht' => rw [ht, ht', hat.unique hnodup hat']
    | other hne => exact absurd rfl (hne _)
  | other hne =>
    cases h' with
    | label => exact absurd rfl (hne _)
    | other => rfl

theorem LinksInstr.unique (hnodup : code.labels.Nodup) {pc : Nat} {i j k : Instr}
    (h : code.LinksInstr pc i j) (h' : code.LinksInstr pc i k) : j = k := by
  have hrel {o p q : Option Operand} (hp : Option.Rel (code.Links i.op pc) o p)
      (hq : Option.Rel (code.Links i.op pc) o q) : p = q := by
    cases hp with
    | none =>
      cases hq
      rfl
    | some hp =>
      cases hq with
      | some hq => rw [hp.unique hnodup hq]
  have hdest := hrel h.dest h'.dest
  have hsrc := hrel h.src h'.src
  obtain ⟨op, dest, src, comment, origin⟩ := j
  obtain ⟨op', dest', src', comment', origin'⟩ := k
  obtain rfl : dest = dest' := hdest
  obtain rfl : src = src' := hsrc
  obtain rfl : op = op' := h.op.trans h'.op.symm
  obtain rfl : comment = comment' := h.comment.trans h'.comment.symm
  obtain rfl : origin = origin' := h.origin.trans h'.origin.symm
  rfl

/-- **The lines prescribe one result.** -/
theorem Assembles.unique {r r' : Except InternalError (List Instr)} (h : code.Assembles r)
    (h' : code.Assembles r') : r = r' := by
  -- the three outcomes exclude each other: by the repeated label, then by the missing one
  cases h with
  | repeated hl =>
    cases h' with
    | repeated hl' => rw [hl.unique hl']
    | missed hnodup => exact absurd hnodup hl.not_nodup
    | linked hnodup => exact absurd hnodup hl.not_nodup
  | missed hnodup hl =>
    cases h' with
    | repeated hl' => exact absurd hnodup hl'.not_nodup
    | missed _ hl' => rw [hl.unique hl']
    | linked _ hall =>
      obtain ⟨l, hmem, hnot⟩ := hl.exists
      exact absurd (hall l hmem) hnot
  | @linked js hnodup hall hlen hlinks =>
    cases h' with
    | repeated hl' => exact absurd hnodup hl'.not_nodup
    | missed _ hl' =>
      obtain ⟨l, hmem, hnot⟩ := hl'.exists
      exact absurd (hall l hmem) hnot
    | @linked js' _ _ hlen' hlinks' =>
      refine congrArg Except.ok (List.ext_getElem (hlen.trans hlen'.symm) ?_)
      intro pc hpc hpc'
      have hi : pc < code.instrs.length := by
        have hsize : code.size = code.instrs.length := rfl
        omega
      exact (hlinks pc _ _ (List.getElem?_eq_getElem hi) (List.getElem?_eq_getElem hpc)).unique hnodup
        (hlinks' pc _ _ (List.getElem?_eq_getElem hi) (List.getElem?_eq_getElem hpc'))

end Code

/-! ## Labels -/

section Labels

variable {addr : Nat} {t t' : Table Nat} {code : Code} {l : String} {a : Nat}

/-- Labels are collected up to the first one that is there already. -/
theorem collectLabels_cases (addr : Nat) (t : Table Nat) (code : Code) :
    (∃ t', collectLabels addr t code = .ok t') ∨
      ∃ pre l post, code = pre ++ .label l :: post ∧ (t.contains l = true ∨ l ∈ Code.labels pre) ∧
        (Code.labels pre).Nodup ∧ (∀ l' ∈ Code.labels pre, t.get? l' = none) ∧
        collectLabels addr t code = .error (.labelRedefinition l) := by
  induction code generalizing addr t with
  | nil => exact .inl ⟨t, rfl⟩
  | cons line code ih =>
    cases line with
    | instr i =>
      rcases ih (addr + 1) t with hok | ⟨pre, l, post, rfl, hmem, hnodup, hnew, herr⟩
      · exact .inl hok
      · exact .inr ⟨.instr i :: pre, l, post, rfl, hmem, hnodup, hnew, herr⟩
    | label name =>
      by_cases hname : t.contains name = true
      · exact .inr ⟨[], name, code, rfl, .inl hname, by simp, by simp,
          by rw [collectLabels, if_pos hname]⟩
      · have hnone : t.get? name = none := by simpa [Table.contains] using hname
        rw [collectLabels, if_neg hname]
        rcases ih addr (t.insert name addr) with hok | ⟨pre, l, post, rfl, hmem, hnodup, hnew, herr⟩
        · exact .inl hok
        · -- the rest was collected with this label in the table, so it does not repeat it
          have hnot : name ∉ Code.labels pre := by
            intro hin
            have hself := hnew name hin
            rw [Table.get?_insert_self] at hself
            cases hself
          refine .inr ⟨.label name :: pre, l, post, rfl, ?_, ?_, ?_, herr⟩
          · by_cases hl : l = name
            · exact .inr (by simp [hl])
            · rcases hmem with hold | hin
              · left
                rwa [Table.contains, Table.get?_insert_of_ne t hl] at hold
              · exact .inr (by simp [hin])
          · rw [Code.labels_cons_label]
            exact List.nodup_cons.mpr ⟨hnot, hnodup⟩
          · intro l' hl'
            rw [Code.labels_cons_label] at hl'
            rcases List.mem_cons.mp hl' with rfl | hin
            · exact hnone
            · have hne : l' ≠ name := fun he => hnot (he ▸ hin)
              rw [← Table.get?_insert_of_ne t hne addr]
              exact hnew l' hin

/-- A label that was collected stands on a line, behind as many instructions as its address says. -/
theorem exists_line_of_collectLabels (h : collectLabels addr t code = .ok t')
    (hl : t'.get? l = some a) :
    t.get? l = some a ∨ ∃ pre post, code = pre ++ .label l :: post ∧ a = addr + Code.size pre := by
  -- the table grows along the code, so it is general in the induction
  induction code generalizing addr t with
  | nil =>
    cases h
    exact .inl hl
  | cons line code ih =>
    cases line with
    | instr i =>
      rcases ih h with hold | ⟨pre, post, rfl, rfl⟩
      · exact .inl hold
      · refine .inr ⟨.instr i :: pre, post, rfl, ?_⟩
        rw [Code.size_cons_instr]
        omega
    | label name =>
      simp only [collectLabels] at h
      split at h
      · cases h
      · rcases ih h with hold | ⟨pre, post, rfl, rfl⟩
        · by_cases hname : l = name
          · subst hname
            rw [Table.get?_insert_self] at hold
            cases hold
            exact .inr ⟨[], code, rfl, rfl⟩
          · rw [Table.get?_insert_of_ne _ hname] at hold
            exact .inl hold
        · exact .inr ⟨.label name :: pre, post, rfl, rfl⟩

/-- The table of labels says where labels stand. -/
theorem definesAt_of_labelAddresses (h : labelAddresses code = .ok t) (hl : t.get? l = some a) :
    code.DefinesAt l a := by
  rcases exists_line_of_collectLabels h hl with hnone | ⟨pre, post, heq, ha⟩
  · simp at hnone
  · exact ⟨pre, post, heq, by omega⟩

/-- The labels of the code are those with an address. -/
theorem mem_labels_iff_of_labelAddresses (h : labelAddresses code = .ok t) :
    l ∈ code.labels ↔ ∃ a, t.get? l = some a := by
  constructor
  · exact exists_of_collectLabels h
  · rintro ⟨a, ha⟩
    exact (definesAt_of_labelAddresses h ha).mem_labels

/-- **Labels have addresses unless one is there twice**, and then the first repetition is
reported. -/
theorem labelAddresses_cases (code : Code) :
    (∃ t, labelAddresses code = .ok t ∧ code.labels.Nodup) ∨
      ∃ l, code.RepeatsFirst l ∧ labelAddresses code = .error (.labelRedefinition l) := by
  rcases collectLabels_cases 0 .empty code with ⟨t, ht⟩ | ⟨pre, l, post, heq, hmem, hnodup, -, herr⟩
  · exact .inl ⟨t, ht, (nodup_of_collectLabels ht).1⟩
  · refine .inr ⟨l, ⟨pre, post, heq, ?_, hnodup⟩, herr⟩
    rcases hmem with hempty | hin
    · simp [Table.contains] at hempty
    · exact hin

end Labels

/-! ## Operands -/

section Operands

variable {labels : Table Nat} {op : OpCode} {pc : Nat}

/-- All labels among these operands have an address. -/
def Known (labels : Table Nat) (os : List Operand) : Prop :=
  ∀ l, .label l ∈ os → ∃ a, labels.get? l = some a

/-- The first of these operands with a label that has no address. -/
def FirstUnknown (labels : Table Nat) (os : List Operand) (l : String) : Prop :=
  ∃ pre post, os = pre ++ .label l :: post ∧ labels.get? l = none ∧ Known labels pre

theorem known_append {os os' : List Operand} :
    Known labels (os ++ os') ↔ Known labels os ∧ Known labels os' := by
  simp only [Known, List.mem_append]
  constructor
  · intro h
    exact ⟨fun l hl => h l (.inl hl), fun l hl => h l (.inr hl)⟩
  · rintro ⟨h, h'⟩ l (hl | hl)
    · exact h l hl
    · exact h' l hl

theorem FirstUnknown.append_right {os : List Operand} {l : String}
    (h : FirstUnknown labels os l) (os' : List Operand) : FirstUnknown labels (os ++ os') l := by
  obtain ⟨pre, post, rfl, hnone, hknown⟩ := h
  exact ⟨pre, post ++ os', by simp, hnone, hknown⟩

theorem FirstUnknown.append_left {os : List Operand} {l : String} (h : FirstUnknown labels os l)
    {os' : List Operand} (hos : Known labels os') : FirstUnknown labels (os' ++ os) l := by
  obtain ⟨pre, post, rfl, hnone, hknown⟩ := h
  exact ⟨os' ++ pre, post, by simp, hnone, known_append.mpr ⟨hos, hknown⟩⟩

/-- An operand is linked unless its label has no address. -/
theorem mapM_linkOperand_cases (labels : Table Nat) (op : OpCode) (pc : Nat) (o : Option Operand) :
    (Known labels o.toList ∧ ∃ o', o.mapM (linkOperand labels op pc) = .ok o') ∨
      ∃ l, FirstUnknown labels o.toList l ∧
        o.mapM (linkOperand labels op pc) = .error (.undefinedLabel l) := by
  cases o with
  | none => exact .inl ⟨by simp [Known], none, rfl⟩
  | some o =>
    rw [Option.mapM_some]
    cases o with
    | label l =>
      cases hl : labels.get? l with
      | some a =>
        refine .inl ⟨?_, _, by rw [linkOperand, hl]; rfl⟩
        intro l' hl'
        simp only [Option.toList_some, List.mem_singleton, Operand.label.injEq] at hl'
        exact ⟨a, hl' ▸ hl⟩
      | none =>
        exact .inr ⟨l, ⟨[], [], rfl, hl, by simp [Known]⟩, by rw [linkOperand, hl]; rfl⟩
    | _ => exact .inl ⟨by simp [Known], _, rfl⟩

theorem mapOperands_linkOperand_cases (labels : Table Nat) (op : OpCode) (pc : Nat) (i : Instr) :
    (Known labels i.operands ∧ ∃ j, i.mapOperands (linkOperand labels op pc) = .ok j) ∨
      ∃ l, FirstUnknown labels i.operands l ∧
        i.mapOperands (linkOperand labels op pc) = .error (.undefinedLabel l) := by
  unfold Instr.mapOperands Instr.operands
  rcases mapM_linkOperand_cases labels op pc i.dest with ⟨hdest, dest, hd⟩ | ⟨l, hl, hd⟩
  · rw [hd]
    rcases mapM_linkOperand_cases labels op pc i.src with ⟨hsrc, src, hs⟩ | ⟨l, hl, hs⟩
    · rw [hs]
      exact .inl ⟨known_append.mpr ⟨hdest, hsrc⟩, _, rfl⟩
    · rw [hs]
      exact .inr ⟨l, hl.append_left hdest, rfl⟩
  · rw [hd]
    exact .inr ⟨l, hl.append_right _, rfl⟩

/-- **Instructions are linked unless a label has no address**, and then the first one is reported. -/
theorem linkFrom_cases (labels : Table Nat) (pc : Nat) (is : List Instr) :
    (Known labels (is.flatMap Instr.operands) ∧ ∃ js, linkFrom labels pc is = .ok js) ∨
      ∃ l, FirstUnknown labels (is.flatMap Instr.operands) l ∧
        linkFrom labels pc is = .error (.undefinedLabel l) := by
  induction is generalizing pc with
  | nil => exact .inl ⟨by simp [Known], [], rfl⟩
  | cons i is ih =>
    rw [List.flatMap_cons, linkFrom]
    rcases mapOperands_linkOperand_cases labels i.op pc i with ⟨hi, j, hj⟩ | ⟨l, hl, hj⟩
    · rw [hj]
      rcases ih (pc + 1) with ⟨his, js, hjs⟩ | ⟨l, hl, hjs⟩
      · simp only [bind, Except.bind, hjs]
        exact .inl ⟨known_append.mpr ⟨hi, his⟩, _, rfl⟩
      · simp only [bind, Except.bind, hjs]
        exact .inr ⟨l, hl.append_left hi, rfl⟩
    · rw [hj]
      exact .inr ⟨l, hl.append_right _, rfl⟩

end Operands

/-! ## Linked instructions -/

section Linked

variable {code : Code} {labels : Table Nat} {pc : Nat}

theorem links_of_linkOperand (hlabels : labelAddresses code = .ok labels) {op : OpCode}
    (hpc : pc ≤ code.size) {o o' : Operand} (h : linkOperand labels op pc o = .ok o') :
    code.Links op pc o o' := by
  cases o with
  | label l =>
    simp only [linkOperand] at h
    split at h
    · cases h
    next addr hl =>
      cases h
      have hat := definesAt_of_labelAddresses hlabels hl
      have hle := hat.le_size
      refine .label hat hle rfl ?_
      intro hsize
      split
      · exact Int64.toInt_ofInt_of_le (by omega) (by omega)
      · exact Int64.toInt_ofInt_of_le (by omega) (by omega)
  | _ =>
    cases h
    exact .other (by simp)

theorem linksInstr_of_mapOperands (hlabels : labelAddresses code = .ok labels)
    (hpc : pc ≤ code.size) {i j : Instr}
    (h : i.mapOperands (linkOperand labels i.op pc) = .ok j) : code.LinksInstr pc i j := by
  have hrel {o o' : Option Operand} (h : o.mapM (linkOperand labels i.op pc) = .ok o') :
      Option.Rel (code.Links i.op pc) o o' := by
    cases o with
    | none =>
      cases h
      exact .none
    | some o =>
      simp only [Option.mapM_some, map_eq_ok] at h
      obtain ⟨o₁, h₁, rfl⟩ := h
      exact .some (links_of_linkOperand hlabels hpc h₁)
  simp only [Instr.mapOperands, bind_eq_ok, pure_eq_ok] at h
  obtain ⟨dest, hdest, src, hsrc, rfl⟩ := h
  exact ⟨rfl, hrel hdest, hrel hsrc, rfl, rfl⟩

/-- Every instruction is linked in its place. -/
theorem linksInstr_of_assemble {js : List Instr} (h : assemble code = .ok js) {i j : Instr}
    (hi : code.instrs[pc]? = some i) (hj : js[pc]? = some j) : code.LinksInstr pc i j := by
  simp only [assemble, bind_eq_ok] at h
  obtain ⟨labels, hlabels, hlink⟩ := h
  obtain ⟨hlt, rfl⟩ := List.getElem?_eq_some_iff.mp hi
  have hsplit : code.instrs = code.instrs.take pc ++ code.instrs[pc] :: code.instrs.drop (pc + 1) := by
    rw [List.getElem_cons_drop, List.take_append_drop]
  have hlen : (code.instrs.take pc).length = pc := by
    rw [List.length_take]
    omega
  rw [hsplit] at hlink
  obtain ⟨j', hj', hmap⟩ := getElem?_of_linkFrom hlink
  rw [hlen] at hj'
  rw [hlen, Nat.zero_add] at hmap
  cases hj.symm.trans hj'
  exact linksInstr_of_mapOperands hlabels hlt.le hmap

theorem length_of_assemble {js : List Instr} (h : assemble code = .ok js) :
    js.length = code.size := by
  simp only [assemble, bind_eq_ok] at h
  obtain ⟨labels, -, hlink⟩ := h
  exact length_of_linkFrom hlink

/-- **Assembly has a result that the lines prescribe.** -/
theorem assembles_assemble (code : Code) : code.Assembles (assemble code) := by
  rcases labelAddresses_cases code with ⟨labels, hlabels, hnodup⟩ | ⟨l, hl, herr⟩
  · have hlink : assemble code = linkFrom labels 0 code.instrs := by
      rw [assemble, hlabels]
      rfl
    have hmem {l : String} : l ∈ code.labels ↔ ∃ a, labels.get? l = some a :=
      mem_labels_iff_of_labelAddresses hlabels
    rcases linkFrom_cases labels 0 code.instrs with ⟨hknown, js, hjs⟩ | ⟨l, hl, herr⟩
    · have hok := hlink.trans hjs
      rw [hok]
      exact .linked hnodup (fun l hl => hmem.mpr (hknown l hl)) (length_of_assemble hok)
        fun pc i j hi hj => linksInstr_of_assemble hok hi hj
    · obtain ⟨pre, post, heq, hnone, hknown⟩ := hl
      rw [hlink, herr]
      refine .missed hnodup ⟨pre, post, heq, ?_, fun l' hl' => hmem.mpr (hknown l' hl')⟩
      rw [hmem, hnone]
      simp
  · rw [assemble, herr]
    exact .repeated hl

end Linked

/-! ## What is left without a place -/

/-- An instruction has a variable for an operand. -/
def Instr.HasVariable (i : Instr) : Prop := ∃ key index, .var key index ∈ i.operands

variable {code : Code}

/-- Labels are gone after linking, so only variables are left without a place. -/
theorem Code.LinksInstr.any_isPending {pc : Nat} {i j : Instr} (h : code.LinksInstr pc i j) :
    j.operands.any Operand.isPending = true ↔ i.HasVariable := by
  have hlinks {o o' : Operand} (h : code.Links i.op pc o o') :
      o'.isPending = true ↔ ∃ key index, o = .var key index := by
    cases h with
    | label => simp [Operand.isPending]
    | other hne =>
      cases o with
      | label l => exact absurd rfl (hne l)
      | var key index => simp [Operand.isPending]
      | _ => simp [Operand.isPending]
  have hrel {o o' : Option Operand} (h : Option.Rel (code.Links i.op pc) o o') :
      o'.toList.any Operand.isPending = true ↔ ∃ key index, .var key index ∈ o.toList := by
    cases h with
    | none => simp
    | some h => simp [hlinks h, eq_comm]
  simp only [Instr.operands, List.any_append, Bool.or_eq_true, hrel h.dest, hrel h.src,
    Instr.HasVariable, List.mem_append]
  constructor
  · rintro (⟨key, index, hmem⟩ | ⟨key, index, hmem⟩)
    · exact ⟨key, index, .inl hmem⟩
    · exact ⟨key, index, .inr hmem⟩
  · rintro ⟨key, index, hmem | hmem⟩
    · exact .inl ⟨key, index, hmem⟩
    · exact .inr ⟨key, index, hmem⟩

theorem checkResolvedFrom_append {addr : Nat} {pre post : List Instr}
    (h : ∀ j ∈ pre, j.operands.any Operand.isPending = false) :
    checkResolvedFrom addr (pre ++ post) = checkResolvedFrom (addr + pre.length) post := by
  induction pre generalizing addr with
  | nil => rfl
  | cons j pre ih =>
    rw [List.forall_mem_cons] at h
    rw [List.cons_append, checkResolvedFrom, if_neg (by simp [h.1]), ih h.2, List.length_cons]
    congr 1
    omega

/-- A linked instruction has something without a place exactly if it had a variable. -/
theorem any_isPending_of_assemble {js : List Instr} (h : assemble code = .ok js) {pc : Nat}
    {j : Instr} (hj : js[pc]? = some j) :
    ∃ i, code.instrs[pc]? = some i ∧ (j.operands.any Operand.isPending = true ↔ i.HasVariable) := by
  have hlt := (List.getElem?_eq_some_iff.mp hj).1
  rw [length_of_assemble h] at hlt
  have hi := List.getElem?_eq_getElem hlt
  exact ⟨_, hi, (linksInstr_of_assemble h hi hj).any_isPending⟩

/-- The first instruction with a variable is reported. -/
theorem checkResolved_eq_error {js pre post : List Instr} {i : Instr} (h : assemble code = .ok js)
    (hsplit : code.instrs = pre ++ i :: post) (hpre : ∀ i' ∈ pre, ¬ i'.HasVariable)
    (hi : i.HasVariable) :
    ∃ j, js[pre.length]? = some j ∧
      checkResolved js = .error (.pendingOperand pre.length j.text) := by
  have hlen : pre.length < js.length := by
    rw [length_of_assemble h, Code.size, hsplit]
    simp
  have hj := List.getElem?_eq_getElem hlen
  have hprefix : (js.take pre.length).length = pre.length := by
    rw [List.length_take]
    omega
  -- nothing in front of the instruction is pending
  have hbefore : ∀ j ∈ js.take pre.length, j.operands.any Operand.isPending = false := by
    intro j hmem
    obtain ⟨k, hk⟩ := List.mem_iff_getElem?.mp hmem
    have hkpre : k < pre.length := by
      have hlt := (List.getElem?_eq_some_iff.mp hk).1
      omega
    rw [List.getElem?_take_of_lt hkpre] at hk
    obtain ⟨i', hi', hiff⟩ := any_isPending_of_assemble h hk
    rw [hsplit, List.getElem?_append_left hkpre] at hi'
    rw [← Bool.not_eq_true, hiff]
    exact hpre i' (List.mem_of_getElem? hi')
  obtain ⟨i', hi', hiff⟩ := any_isPending_of_assemble h hj
  rw [hsplit, List.getElem?_append_right le_rfl, Nat.sub_self] at hi'
  cases hi'
  refine ⟨_, hj, ?_⟩
  have hjs : js = js.take pre.length ++ js[pre.length] :: js.drop (pre.length + 1) := by
    rw [List.getElem_cons_drop, List.take_append_drop]
  rw [checkResolved]
  conv_lhs => rw [hjs]
  rw [checkResolvedFrom_append hbefore, hprefix, Nat.zero_add, checkResolvedFrom,
    if_pos (hiff.mpr hi)]

/-- Everything has its place exactly if no instruction has a variable. -/
theorem checkResolved_eq_ok_iff {js : List Instr} (h : assemble code = .ok js) :
    checkResolved js = .ok () ↔ ∀ i ∈ code.instrs, ¬ i.HasVariable := by
  constructor
  · intro hok i hi hvar
    classical
    have hfound : (code.instrs.find? fun i => decide i.HasVariable).isSome := by
      rw [List.find?_isSome]
      exact ⟨i, hi, by simpa using hvar⟩
    obtain ⟨first, hfirst⟩ := Option.isSome_iff_exists.mp hfound
    obtain ⟨hvar', pre, post, hsplit, hpre⟩ := List.find?_eq_some_iff_append.mp hfirst
    obtain ⟨j, -, herr⟩ := checkResolved_eq_error h hsplit (by simpa using hpre) (by simpa using hvar')
    cases hok.symm.trans herr
  · intro hnone
    have hall : ∀ j ∈ js, j.operands.any Operand.isPending = false := by
      intro j hmem
      obtain ⟨k, hk⟩ := List.mem_iff_getElem?.mp hmem
      obtain ⟨i, hi, hiff⟩ := any_isPending_of_assemble h hk
      rw [← Bool.not_eq_true, hiff]
      exact hnone i (List.mem_of_getElem? hi)
    have happend : checkResolvedFrom 0 (js ++ []) = checkResolvedFrom (0 + js.length) [] :=
      checkResolvedFrom_append hall
    rwa [List.append_nil] at happend

/-- **Linking is exact.** The result of assembly is the one that the lines prescribe and no other:
the first label that is there twice is refused; otherwise the first operand with a label that is not
there, in the order of the instructions and the destination first; otherwise the instructions are
returned in their order, and only labels among their operands are replaced, by the number of
instructions in front of the label or, in a relative jump, by the distance to it. What is assembled
has a place for everything exactly if no instruction has a variable, and otherwise the first
instruction with one is reported. -/
theorem exact_linking (code : Code) :
    (∀ r, assemble code = r ↔ code.Assembles r) ∧
    ∀ js, assemble code = .ok js →
      (checkResolved js = .ok () ↔ ∀ i ∈ code.instrs, ¬ i.HasVariable) ∧
      ∀ pre i post, code.instrs = pre ++ i :: post → (∀ i' ∈ pre, ¬ i'.HasVariable) →
        i.HasVariable → ∃ j, js[pre.length]? = some j ∧
          checkResolved js = .error (.pendingOperand pre.length j.text) := by
  refine ⟨?_, ?_⟩
  · intro r
    constructor
    · rintro rfl
      exact assembles_assemble code
    · intro h
      exact (assembles_assemble code).unique h
  · intro js hjs
    refine ⟨checkResolved_eq_ok_iff hjs, ?_⟩
    intro pre i post hsplit hpre hi
    exact checkResolved_eq_error hjs hsplit hpre hi

/-- Two labels at one address, one at the end, a jump back and a jump over nothing. -/
example :
    assemble [.label "a", .label "b", .instr (.rjmp (.label "end")), .instr (.jmp (.label "b")),
      .instr (.rjmp (.label "a")), .label "end"] =
      .ok [.rjmp (.imm (.int 3)), .jmp (.imm (.int 0)), .rjmp (.imm (.int (-2)))] := by decide

end Stepwise
