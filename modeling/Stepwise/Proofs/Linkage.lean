import Mathlib
import Stepwise.Proofs.Compilation

/-!
# How generated code fits together

Generated code defines labels and refers to labels and to variables of the frame. Each function
numbers its own labels and puts its name in front, so they differ from each other and from those of
every other function. What code refers to is there: a variable in scope has its key in the frame, a
jump stays in the function, and a call goes to the label of a function.

## Main definitions

* `Code.labels`: the labels that code defines
* `Code.Refers`: what code refers to is there
* `Wired`: code with labels of its own that refers only to what is there

## Main results

* `labelName_injective`: labels of different functions or with different numbers differ
* `Pieced.wired`: the code of an expression is wired
* `wiredAt_of_lowerStmt`: the code of a statement is wired
* `wired_functionCode`: the code of a function is wired
-/

namespace Stepwise

/-! ## Labels and references of code -/

/-- The label that a line defines, if it defines one. -/
def Line.label? : Line → Option String
  | .label name => some name
  | .instr _ => none

/-- What an operand refers to is there: the key of a variable, or a label. -/
def Operand.Refers (keys names : String → Prop) : Operand → Prop
  | .var key _ => keys key
  | .label l => names l
  | _ => True

/-- What an instruction refers to is there. -/
def Instr.Refers (keys names : String → Prop) (i : Instr) : Prop :=
  ∀ o ∈ i.operands, o.Refers keys names

namespace Code

/-- The labels that code defines, in order. -/
def labels (c : Code) : List String := c.filterMap Line.label?

/-- What code refers to is there. -/
def Refers (keys names : String → Prop) (c : Code) : Prop := ∀ i ∈ c.instrs, i.Refers keys names

@[simp]
theorem labels_nil : labels [] = [] := rfl

@[simp]
theorem labels_cons_label (l : String) (c : Code) : labels (.label l :: c) = l :: labels c := rfl

@[simp]
theorem labels_cons_instr (i : Instr) (c : Code) : labels (.instr i :: c) = labels c := rfl

@[simp]
theorem labels_append (c d : Code) : labels (c ++ d) = labels c ++ labels d :=
  List.filterMap_append

@[simp]
theorem labels_located (loc : Location) (c : Code) : labels (located loc c) = labels c := by
  induction c with
  | nil => rfl
  | cons line c ih => cases line <;> simp [ih]

@[simp]
theorem labels_ofInstrs (is : List Instr) : labels (ofInstrs is) = [] := by
  induction is with
  | nil => rfl
  | cons i is ih => simpa using ih

variable {keys names : String → Prop}

@[simp]
theorem refers_nil : Refers keys names [] := by simp [Refers]

@[simp]
theorem refers_cons_label {l : String} {c : Code} :
    Refers keys names (.label l :: c) ↔ Refers keys names c := Iff.rfl

@[simp]
theorem refers_cons_instr {i : Instr} {c : Code} :
    Refers keys names (.instr i :: c) ↔ i.Refers keys names ∧ Refers keys names c := by
  simp [Refers]

@[simp]
theorem refers_append {c d : Code} :
    Refers keys names (c ++ d) ↔ Refers keys names c ∧ Refers keys names d := by
  simp [Refers, or_imp, forall_and]

end Code

section Refers

variable {keys names keys' names' : String → Prop} {o o' : Operand} {i : Instr}

theorem Operand.Refers.mono (h : o.Refers keys names) (hk : ∀ key, keys key → keys' key)
    (hn : ∀ l, names l → names' l) : o.Refers keys' names' := by
  cases o with
  | var key index => exact hk key h
  | label l => exact hn l h
  | _ => trivial

theorem Code.Refers.mono {c : Code} (h : c.Refers keys names) (hk : ∀ key, keys key → keys' key)
    (hn : ∀ l, names l → names' l) : c.Refers keys' names' :=
  fun i hi o ho => (h i hi o ho).mono hk hn

@[simp]
theorem Operand.refers_imm {v : Value} : (Operand.imm v).Refers keys names := trivial

@[simp]
theorem Operand.refers_reg {r : Reg} : (Operand.reg r).Refers keys names := trivial

@[simp]
theorem Operand.refers_label {l : String} : (Operand.label l).Refers keys names ↔ names l := Iff.rfl

@[simp]
theorem Instr.refers_located {loc : Location} :
    (i.located loc).Refers keys names ↔ i.Refers keys names := by
  unfold Instr.located
  split <;> rfl

@[simp]
theorem Instr.refers_withComment {comment : String} :
    (i.withComment comment).Refers keys names ↔ i.Refers keys names := Iff.rfl

@[simp]
theorem Instr.refers_withOrigin {loc : Location} :
    (i.withOrigin loc).Refers keys names ↔ i.Refers keys names := Iff.rfl

@[simp]
theorem Instr.refers_unary {op : OpCode} :
    (Instr.unary op o).Refers keys names ↔ o.Refers keys names := by
  simp [Instr.Refers, Instr.operands, Instr.unary]

@[simp]
theorem Instr.refers_binary {op : OpCode} :
    (Instr.binary op o o').Refers keys names ↔ o.Refers keys names ∧ o'.Refers keys names := by
  simp [Instr.Refers, Instr.operands, Instr.binary]

@[simp]
theorem Instr.refers_push : (Instr.push o).Refers keys names ↔ o.Refers keys names :=
  Instr.refers_unary

@[simp]
theorem Instr.refers_pop : (Instr.pop o).Refers keys names ↔ o.Refers keys names :=
  Instr.refers_unary

@[simp]
theorem Instr.refers_mov :
    (Instr.mov o o').Refers keys names ↔ o.Refers keys names ∧ o'.Refers keys names :=
  Instr.refers_binary

@[simp]
theorem Instr.refers_ldi {r : Reg} {v : Value} : (Instr.ldi r v).Refers keys names := by
  simp [Instr.ldi]

@[simp]
theorem Instr.refers_rjmp : (Instr.rjmp o).Refers keys names ↔ o.Refers keys names :=
  Instr.refers_unary

@[simp]
theorem Instr.refers_rjmpIfZero {r : Reg} :
    (Instr.rjmpIfZero o r).Refers keys names ↔ o.Refers keys names := by
  simp [Instr.rjmpIfZero]

@[simp]
theorem Instr.refers_call {n : Nat} :
    (Instr.call o n).Refers keys names ↔ o.Refers keys names := by
  simp [Instr.call]

@[simp]
theorem Instr.refers_ret : Instr.ret.Refers keys names := by
  simp [Instr.Refers, Instr.operands, Instr.ret, Instr.nullary]

@[simp]
theorem Code.refers_located {loc : Location} {c : Code} :
    (Code.located loc c).Refers keys names ↔ c.Refers keys names := by
  induction c with
  | nil => simp
  | cons line c ih => cases line <;> simp [ih]

end Refers

/-- If a partial function has a result with a property for each operand, it has one for the
instruction. -/
theorem Instr.mapOperands_of_forall {ε : Type} {f : Operand → Except ε Operand}
    {p : Operand → Prop} {i : Instr} (h : ∀ o ∈ i.operands, ∃ o', f o = .ok o' ∧ p o') :
    ∃ j, i.mapOperands f = .ok j ∧ ∀ o ∈ j.operands, p o := by
  have hoption {x : Option Operand} (hx : ∀ o ∈ x, ∃ o', f o = .ok o' ∧ p o') :
      ∃ x', x.mapM f = .ok x' ∧ ∀ o ∈ x', p o := by
    cases x with
    | none => exact ⟨none, rfl, by simp⟩
    | some o =>
      obtain ⟨o', ho', hp⟩ := hx o rfl
      exact ⟨some o', by rw [Option.mapM_some, ho']; rfl, by simpa using hp⟩
  simp only [operands, List.mem_append, Option.mem_toList] at h
  obtain ⟨dest, hdest, hd⟩ := hoption fun o ho => h o (.inl ho)
  obtain ⟨src, hsrc, hs⟩ := hoption fun o ho => h o (.inr ho)
  refine ⟨{ i with dest := dest, src := src }, ?_, fun o ho => ?_⟩
  · simp only [mapOperands, bind_eq_ok, pure_eq_ok]
    exact ⟨dest, hdest, src, hsrc, rfl⟩
  · simp only [operands, List.mem_append, Option.mem_toList] at ho
    rcases ho with ho | ho
    · exact hd o ho
    · exact hs o ho

end Stepwise

namespace Stepwise.Lowering

open Snippet

/-! ## Names of labels -/

/-- The kinds of labels that lowering gives out. -/
def labelKinds : List String :=
  ["true", "false", "end", "rhs", "endif", "else", "while", "endwhile", "do", "test", "enddo", "for",
    "next", "endfor"]

/-- Two ways to cut a list where a property begins to hold are the same. -/
theorem append_inj_of_boundary {α : Type} {p : α → Prop} {a a' b b' : List α}
    (h : a ++ b = a' ++ b') (hb : ∀ x ∈ b, p x) (hb' : ∀ x ∈ b', p x)
    (ha : ∀ x ∈ a.getLast?, ¬ p x) (ha' : ∀ x ∈ a'.getLast?, ¬ p x) : a = a' ∧ b = b' := by
  rcases List.append_eq_append_iff.mp h with ⟨c, rfl, rfl⟩ | ⟨c, rfl, rfl⟩
  · rcases List.eq_nil_or_concat c with rfl | ⟨c, x, rfl⟩
    · simp
    · exact absurd (hb x (by simp)) (ha' x (by simp))
  · rcases List.eq_nil_or_concat c with rfl | ⟨c, x, rfl⟩
    · simp
    · exact absurd (hb' x (by simp)) (ha x (by simp))

/-- A kind is a word without digits and dots. -/
theorem labelKinds_plain {kind : String} (h : kind ∈ labelKinds) :
    ∀ c ∈ kind.toList, c.isDigit = false ∧ c ≠ '.' := by
  fin_cases h <;> simp

theorem labelKinds_ne_empty {kind : String} (h : kind ∈ labelKinds) : kind.toList ≠ [] := by
  revert kind
  decide

/-- The letters of a label: the function, a dot, the kind and the number. -/
theorem toList_labelName (fn kind : String) (n : Nat) :
    (labelName fn kind n).toList =
      (fn.toList ++ ['.']) ++ kind.toList ++ (toString (n + 1)).toList := by
  simp [labelName]

theorem isDigit_of_mem_toString {n : Nat} {c : Char} (h : c ∈ (toString n).toList) :
    c.isDigit = true := by
  change c ∈ n.repr.toList at h
  rw [Nat.repr_eq_ofList_toDigits, String.toList_ofList] at h
  exact Nat.isDigit_of_mem_toDigits (by decide) le_rfl h

variable {fn : String} {frame : FrameLayout}

/-- **A label tells its function, its kind and its number.** -/
theorem labelName_injective {fn' kind kind' : String} {n n' : Nat} (hk : kind ∈ labelKinds)
    (hk' : kind' ∈ labelKinds) (h : labelName fn kind n = labelName fn' kind' n') :
    fn = fn' ∧ kind = kind' ∧ n = n' := by
  have hl := congrArg String.toList h
  rw [toList_labelName, toList_labelName] at hl
  have hlast {fn kind : String} (hk : kind ∈ labelKinds) :
      ∀ c ∈ ((fn.toList ++ ['.']) ++ kind.toList).getLast?, ¬ c.isDigit = true := by
    intro c hc
    rw [List.getLast?_append_of_ne_nil _ (labelKinds_ne_empty hk)] at hc
    rw [(labelKinds_plain hk c (List.mem_of_getLast? hc)).1]
    exact Bool.false_ne_true
  -- the number starts behind the last letter that is not a digit, the kind behind the last dot
  obtain ⟨hword, hnumber⟩ := append_inj_of_boundary hl (fun c => isDigit_of_mem_toString)
    (fun c => isDigit_of_mem_toString) (hlast hk) (hlast hk')
  obtain ⟨hfn, hkind⟩ := append_inj_of_boundary (p := (· ≠ '.')) hword
    (fun c hc => (labelKinds_plain hk c hc).2) (fun c hc => (labelKinds_plain hk' c hc).2)
    (by simp) (by simp)
  refine ⟨String.toList_injective (List.append_cancel_right hfn), String.toList_injective hkind, ?_⟩
  exact Nat.succ_injective (Nat.repr_injective (String.toList_injective hnumber))

/-- A label is longer than the name of its function. -/
theorem labelName_ne (fn kind : String) (n : Nat) : labelName fn kind n ≠ fn := by
  intro h
  have hl := congrArg (fun s => s.toList.length) h
  simp only [toList_labelName, List.length_append, List.length_singleton] at hl
  omega

theorem dot_mem_labelName (fn kind : String) (n : Nat) : '.' ∈ (labelName fn kind n).toList := by
  simp [toList_labelName]

/-- Labels of one function, all different, with numbers from `lo` on and below `hi`. -/
structure Numbered (fn : String) (lo hi : Nat) (ls : List String) : Prop where
  le : lo ≤ hi
  nodup : ls.Nodup
  named : ∀ l ∈ ls, ∃ kind ∈ labelKinds, ∃ n, lo ≤ n ∧ n < hi ∧ l = labelName fn kind n

namespace Numbered

variable {fn : String} {lo mid hi : Nat} {ls ls' : List String}

theorem nil (h : lo ≤ hi) : Numbered fn lo hi [] := ⟨h, List.nodup_nil, by simp⟩

theorem single (kind : String) (h : kind ∈ labelKinds) (n : Nat) :
    Numbered fn n (n + 1) [labelName fn kind n] :=
  ⟨Nat.le_succ n, List.nodup_singleton _, by simpa using ⟨kind, h, n, by omega, by omega, rfl⟩⟩

theorem append (h : Numbered fn lo mid ls) (h' : Numbered fn mid hi ls') :
    Numbered fn lo hi (ls ++ ls') := by
  refine ⟨h.le.trans h'.le, List.nodup_append.mpr ⟨h.nodup, h'.nodup, ?_⟩, fun l hl => ?_⟩
  · rintro l hl _ hl' rfl
    obtain ⟨kind, hk, n, -, hn, rfl⟩ := h.named l hl
    obtain ⟨kind', hk', n', hn', -, heq⟩ := h'.named _ hl'
    have := (labelName_injective hk hk' heq).2.2
    omega
  · rcases List.mem_append.mp hl with hl | hl
    · obtain ⟨kind, hk, n, hlo, hn, rfl⟩ := h.named l hl
      exact ⟨kind, hk, n, hlo, hn.trans_le h'.le, rfl⟩
    · obtain ⟨kind, hk, n, hn, hhi, rfl⟩ := h'.named l hl
      exact ⟨kind, hk, n, h.le.trans hn, hhi, rfl⟩

theorem perm (h : Numbered fn lo hi ls) (hp : ls.Perm ls') : Numbered fn lo hi ls' :=
  ⟨h.le, hp.nodup_iff.mp h.nodup, fun l hl => h.named l (hp.mem_iff.mpr hl)⟩

end Numbered

/-! ## Expressions -/

/-- Code with labels of its own, numbered from `lo` on and below `hi`, that refers only to what is
there, its own labels among it. -/
structure Wired (keys names : String → Prop) (fn : String) (lo hi : Nat) (c : Code) : Prop where
  labels : Numbered fn lo hi c.labels
  refers : (∀ l ∈ c.labels, names l) → c.Refers keys names

/-- What the names in scope stand for is there: the keys of variables and the labels of
functions. -/
def Provides (keys names : String → Prop) (scope : Scope) : Prop :=
  ∀ ⦃name symbol⦄, scope.lookup? name = some symbol →
    match symbol with
    | .variable v => ∀ key, v.slot = .frame key → keys key
    | .function f => f.external = false → names name

section Expressions

variable {keys names : String → Prop} {fn : String} {lo mid hi : Nat} {c d code : Code}

theorem wired_plain (hl : c.labels = []) (hr : c.Refers keys names) (n : Nat) :
    Wired keys names fn n n c := ⟨hl ▸ .nil le_rfl, fun _ => hr⟩

theorem Wired.append (hc : Wired keys names fn lo mid c) (hd : Wired keys names fn mid hi d) :
    Wired keys names fn lo hi (c ++ d) := by
  refine ⟨?_, fun h => ?_⟩
  · rw [Code.labels_append]
    exact hc.labels.append hd.labels
  · rw [Code.labels_append, List.forall_mem_append] at h
    exact Code.refers_append.mpr ⟨hc.refers h.1, hd.refers h.2⟩

theorem Wired.located (hc : Wired keys names fn lo hi c) (loc : Location) :
    Wired keys names fn lo hi (Code.located loc c) :=
  ⟨by simpa using hc.labels, by simpa using hc.refers⟩

/-- Code with plain code behind it. -/
theorem Wired.then (hc : Wired keys names fn lo hi c) (hl : d.labels = [])
    (hr : d.Refers keys names) : Wired keys names fn lo hi (c ++ d) := hc.append (wired_plain hl hr hi)

variable {scope : Scope} {s s' : Supply} {e : Expr} {ty : Ty}

theorem Provides.slot (h : Provides keys names scope) {name : String} {v : Variable}
    (hv : scope.lookup? name = some (.variable v)) (x : Option Reg) :
    (v.slot.operand x).Refers keys names := by
  have hkey := h hv
  cases hs : v.slot with
  | global offset => trivial
  | frame key => exact hkey key hs

/-- The operand of a call refers to what is there. -/
def CallRefers (keys names : String → Prop) (name : String) (f : Signature) (_ : Nat) : Prop :=
  (callTarget name f).Refers keys names

theorem Provides.offers (h : Provides keys names scope) :
    Offers (·.Refers keys names) scope := fun _ _ hv => ⟨h.slot hv none, h.slot hv _⟩

theorem Provides.permits (h : Provides keys names scope) (called : List String) :
    Permits (CallRefers keys names) scope called := by
  intro name f argc _ hsym _
  unfold CallRefers callTarget
  split
  next hext => trivial
  next hext => exact h hsym (by simpa using hext)

theorem refers_zeroTest (zero : Bool) : (zeroTest zero).Refers keys names := by
  simp [zeroTest, r2]

theorem labels_applyCode (op : BinaryOp) : (applyCode op).labels = [] := by
  cases op <;> rfl

theorem refers_applyCode (op : BinaryOp) : (applyCode op).Refers keys names := by
  cases op <;>
    simp [applyCode, aluCode, remainderCode, comparisonCode, refers_zeroTest, r0, r1, r2]

/-- The labels of an operator that may skip its right side. -/
theorem numbered_truthLabels (fn : String) (n : Nat) :
    Numbered fn n (n + 3) [(truthLabels fn n).yes, (truthLabels fn n).no, (truthLabels fn n).done] :=
  ((Numbered.single "true" (by decide) n).append
    (.single "false" (by decide) (n + 1))).append
    (.single "end" (by decide) (n + 2))

theorem Wired.andCode (hl : Wired keys names fn lo mid c) (hr : Wired keys names fn mid hi d) :
    Wired keys names fn lo (hi + 3) (andCode (truthLabels fn hi) c d) := by
  refine ⟨?_, fun h => ?_⟩
  · have hn := (hl.labels.append hr.labels).append (numbered_truthLabels fn hi)
    simpa [Snippet.andCode, popTest, truthCode] using hn
  · simp only [Snippet.andCode, popTest, truthCode, Code.labels_append, Code.labels_ofInstrs,
      Code.labels_cons_label, Code.labels_cons_instr, Code.labels_nil, List.append_nil,
      List.forall_mem_append, List.forall_mem_cons] at h
    obtain ⟨⟨hc, hd⟩, -, hno, hdone, -⟩ := h
    simp [Snippet.andCode, popTest, truthCode, hl.refers hc, hr.refers hd, hno, hdone, r0, r2]

theorem Wired.orCode (hl : Wired keys names fn lo mid c) (hr : Wired keys names fn mid hi d) :
    Wired keys names fn lo (hi + 4)
      (orCode (truthLabels fn hi) (labelName fn "rhs" (hi + 3)) c d) := by
  refine ⟨?_, fun h => ?_⟩
  · have hn := ((hl.labels.append hr.labels).append (numbered_truthLabels fn hi)).append
      (.single "rhs" (by decide) (hi + 3))
    refine hn.perm ?_
    rw [List.perm_iff_count]
    intro l
    simp only [Snippet.orCode, popTest, truthCode, Code.labels_append, Code.labels_ofInstrs,
      Code.labels_cons_label, Code.labels_cons_instr, Code.labels_nil, List.append_nil,
      List.count_append, List.count_cons, List.count_nil]
    omega
  · simp only [Snippet.orCode, popTest, truthCode, Code.labels_append, Code.labels_ofInstrs,
      Code.labels_cons_label, Code.labels_cons_instr, Code.labels_nil, List.append_nil,
      List.forall_mem_append, List.forall_mem_cons] at h
    obtain ⟨⟨⟨hc, hrhs, -⟩, hd⟩, hyes, hno, hdone, -⟩ := h
    simp [Snippet.orCode, popTest, truthCode, hl.refers hc, hr.refers hd, hyes, hno, hdone, hrhs, r0,
      r2]

theorem Moves.refers {m n : Nat} {i : Instr} (h : Moves (·.Refers keys names) s m i n) :
    i.Refers keys names := by
  have hstored {o : Operand} (h : Storable (·.Refers keys names) s o) : o.Refers keys names := by
    cases h with
    | place h => exact h
    | cell => trivial
  have hsource {o : Operand} (h : Source (·.Refers keys names) s o) : o.Refers keys names := by
    cases h with
    | imm | reg => trivial
    | stored h => exact hstored h
  cases h with
  | push h => exact Instr.refers_push.mpr (hsource h)
  | pop => exact Instr.refers_pop.mpr trivial
  | mov _ h h' => exact Instr.refers_mov.mpr ⟨hstored h, hsource h'⟩
  | step _ h => exact Instr.refers_unary.mpr (hstored h)

/-- **Code made of pieces is wired.** -/
theorem Pieced.wired {m n : Nat}
    (h : Pieced fn (·.Refers keys names) (CallRefers keys names) m s c n s') :
    Wired keys names fn s.labels s'.labels c := by
  induction h with
  | nil => exact wired_plain rfl (by simp) _
  | instr hi _ ih => exact (wired_plain (c := [_]) rfl (by simp [hi.refers]) _).append ih
  | append _ _ ih ih' => exact ih.append ih'
  | located loc _ ih => exact ih.located loc
  | cell _ _ ih => exact ih
  | unary op _ ih =>
    refine ih.then ?_ ?_
    · cases op <;> rfl
    · cases op <;> simp [refers_zeroTest, r0, r1]
  | @binary _ _ _ _ _ _ op _ _ _ ih ih' =>
    exact ((ih.append ih').then rfl (by simp [r0, r1])).then (labels_applyCode op)
      (refers_applyCode op)
  | and _ _ ih ih' => exact ih.andCode ih'
  | or _ _ ih ih' => exact ih.orCode ih'
  | call _ hcall ih =>
    exact ih.then rfl (by simpa [callCode, CallRefers] using hcall)

/-- The code of an expression refers to what its scope provides. -/
theorem Provides.pieces (h : Provides keys names scope) (fn : String) (e : Expr) :
    Pieces fn (·.Refers keys names) (CallRefers keys names) (lower fn scope e) :=
  pieced_of_lower h.offers (h.permits _)

theorem wired_of_lower (hs : Provides keys names scope)
    (h : lower fn scope e s = .ok ((code, ty), s')) :
    Wired keys names fn s.labels s'.labels code := (hs.pieces fn e h 0).wired

theorem wired_of_lowerEffect (hs : Provides keys names scope)
    (h : lowerEffect fn scope e s = .ok (code, s')) :
    Wired keys names fn s.labels s'.labels code :=
  (pieced_of_lowerEffect hs.offers (hs.permits _) h 0).wired

end Expressions

/-! ## Statements -/

/-- The key is that of a variable of the frame. -/
def HasKey (frame : FrameLayout) (key : String) : Prop := ∃ e, frame.entries.get? key = some e

section Statements

variable {frame : FrameLayout} {names : String → Prop} {site : Site} {d d' : Draft} {code : Code}
  {fn : String} {lo mid hi : Nat}

theorem Provides.declare {keys : String → Prop} {scope scope' : Scope} {name : String}
    {v : Variable} (h : Provides keys names scope) (hv : ∀ key, v.slot = .frame key → keys key)
    (hd : scope.declare name (.variable v) = .ok scope') : Provides keys names scope' := by
  intro k symbol hk
  rw [Scope.lookup?_of_declare hd] at hk
  split at hk
  · cases hk
    exact hv
  · exact h hk

variable {c test : Code}

/-- Code that reserves slots has no labels and refers to nothing. -/
theorem SlotCode.plain {keys : String → Prop} {k : Nat} (h : SlotCode frame k c) :
    c.labels = [] ∧ c.Refers keys names := by
  induction c generalizing k with
  | nil => exact ⟨rfl, by simp⟩
  | cons line c ih =>
    cases line with
    | label name => exact h.elim
    | instr i =>
      obtain ⟨⟨v, comment, hi, -⟩, hrest⟩ := h
      obtain ⟨hl, hr⟩ := ih hrest
      have hops : i.operands = [.imm v] := congrArg Instr.operands hi
      refine ⟨hl, Code.refers_cons_instr.mpr ⟨?_, hr⟩⟩
      simp [Instr.Refers, hops]

theorem Initialized.wired {ty : Ty} {dest : Operand} {dr : Declarator} {initial : Initial}
    {s : Supply} (h : Initialized site ty dest d dr initial s)
    (hs : Provides (HasKey frame) names d.scope) (hd : dest.Refers (HasKey frame) names) :
    Wired (HasKey frame) names site.fn d.supply.labels s.labels (initial.storeCode ty dest) ∧
      ∀ name, Wired (HasKey frame) names site.fn d.supply.labels s.labels
        (initial.slotCode ty name) := by
  cases h with
  | default =>
    exact ⟨wired_plain rfl (by simp [Initial.storeCode, hd]) _,
      fun name => wired_plain rfl (by simp [Initial.slotCode, slotInstr]) _⟩
  | constant =>
    exact ⟨wired_plain rfl (by simp [Initial.storeCode, hd]) _,
      fun name => wired_plain rfl (by simp [Initial.slotCode, slotInstr]) _⟩
  | computed _ _ hst =>
    have hw := (hst.pieced hs.offers hd (hs.pieces site.fn _) 0).wired
    exact ⟨hw, fun name => (wired_plain rfl (by simp [slotInstr]) _).append hw⟩

/-- The names after a statement are those before it and those that it declares. -/
theorem Provides.follow (hs : Provides (HasKey frame) names d.scope) (hl : d.Leads d')
    (hx : d'.frame.Extends frame) : Provides (HasKey frame) names d'.scope := by
  intro name symbol hsym
  rcases hl.names hsym with hold | hfresh
  · exact hs hold
  · rcases symbol with ⟨ty, isArray, length, value, offset | key⟩ | sig
    · exact hfresh.elim
    · obtain ⟨e, -, he, -⟩ := hfresh
      rintro _ ⟨⟩
      exact ⟨e, hx.entries he⟩
    · exact hfresh.elim

theorem wired_of_declared {decl : Declaration} {dr : Declarator}
    (h : Declared site decl d dr code d') (hs : Provides (HasKey frame) names d.scope)
    (hx : d'.frame.Extends frame) :
    Wired (HasKey frame) names site.fn d.supply.labels d'.supply.labels code := by
  cases h with
  | array _ _ hd =>
    split
    · exact wired_plain rfl (by simp) _
    · refine wired_plain (Code.labels_ofInstrs _) ?_ _
      intro i hi
      simp only [Code.ofInstrs, Code.instrs, List.filterMap_map] at hi
      obtain ⟨k, -, hk⟩ := List.mem_filterMap.mp hi
      cases hk
      simp
  | scalar _ hinit hd =>
    have hkey : HasKey frame (d.frame.freshKey dr.name) :=
      ⟨_, hx.entries (d.frame.get?_addLocal dr.name decl.ty none)⟩
    obtain ⟨hstore, hslot⟩ := hinit.wired hs hkey
    refine Wired.located ?_ _
    split
    · exact hstore
    · exact hslot _

theorem wired_of_declareLocals {decl : Declaration} {drs : List Declarator}
    (h : declareLocals site decl drs d = .ok (code, d'))
    (hs : Provides (HasKey frame) names d.scope) (hx : d'.frame.Extends frame) :
    Wired (HasKey frame) names site.fn d.supply.labels d'.supply.labels code := by
  induction drs generalizing d code with
  | nil =>
    cases h
    exact wired_plain rfl (by simp) _
  | cons dr rest ih =>
    obtain ⟨here, d₁, after, hd, hr, rfl⟩ := declareLocals_cons_eq_ok h
    have hx₁ := (leads_of_declareLocals hr).frame.trans hx
    exact (wired_of_declared hd hs hx₁).append (ih hr (hs.follow (leads_of_declared hd) hx₁))

/-- The labels of the loop around a statement are there. -/
def Loops (names : String → Prop) (site : Site) : Prop :=
  ∀ l, site.loop = some l → names l.next ∧ names l.exit

/-- The code of a statement with labels of its own, which refers only to what is there, the labels
of the loop around it among it. -/
structure WiredAt (frame : FrameLayout) (names : String → Prop) (site : Site) (lo hi : Nat)
    (c : Code) : Prop where
  labels : Numbered site.fn lo hi c.labels
  refers : Loops names site → (∀ l ∈ c.labels, names l) → c.Refers (HasKey frame) names

theorem Wired.at (h : Wired (HasKey frame) names site.fn lo hi c) :
    WiredAt frame names site lo hi c := ⟨h.labels, fun _ => h.refers⟩

theorem WiredAt.append {e : Code} (hc : WiredAt frame names site lo mid c)
    (he : WiredAt frame names site mid hi e) : WiredAt frame names site lo hi (c ++ e) := by
  refine ⟨?_, fun hl h => ?_⟩
  · rw [Code.labels_append]
    exact hc.labels.append he.labels
  · rw [Code.labels_append, List.forall_mem_append] at h
    exact Code.refers_append.mpr ⟨hc.refers hl h.1, he.refers hl h.2⟩

theorem WiredAt.located (hc : WiredAt frame names site lo hi c) (loc : Location) :
    WiredAt frame names site lo hi (Code.located loc c) :=
  ⟨by simpa using hc.labels, by simpa using hc.refers⟩

/-- Two labels that are given out one after the other. -/
theorem numbered_pair (kind kind' : String) (h : kind ∈ labelKinds) (h' : kind' ∈ labelKinds)
    (fn : String) (n : Nat) :
    Numbered fn n (n + 2) [labelName fn kind n, labelName fn kind' (n + 1)] :=
  (Numbered.single kind h n).append (.single kind' h' (n + 1))

theorem numbered_triple (kind kind' kind'' : String) (h : kind ∈ labelKinds)
    (h' : kind' ∈ labelKinds) (h'' : kind'' ∈ labelKinds) (fn : String) (n : Nat) :
    Numbered fn n (n + 3)
      [labelName fn kind n, labelName fn kind' (n + 1), labelName fn kind'' (n + 2)] :=
  (numbered_pair kind kind' h h' fn n).append (.single kind'' h'' (n + 2))

@[simp]
theorem labels_codes_nil : (Strand.codes []).labels = [] := rfl

@[simp]
theorem labels_codes_cons (s : Strand) (ss : List Strand) :
    (Strand.codes (s :: ss)).labels = s.code.labels ++ (Strand.codes ss).labels :=
  Code.labels_append _ _

@[simp]
theorem labels_code_label (l : String) : (Strand.label l).code.labels = [l] := rfl

@[simp]
theorem labels_code_jump (l : String) : (Strand.jump l).code.labels = [] := rfl

@[simp]
theorem labels_code_part (c : Code) : (Strand.part c).code.labels = c.labels := rfl

theorem refers_codes {ss : List Strand} {keys : String → Prop} {addr : Nat}
    (hparts : Strand.Each (fun _ c => (∀ l ∈ c.labels, names l) → c.Refers keys names) addr ss)
    (hjumps : ∀ l, .jump l ∈ ss → names l) (h : ∀ l ∈ (Strand.codes ss).labels, names l) :
    (Strand.codes ss).Refers keys names := by
  induction ss generalizing addr with
  | nil => simp [Strand.codes]
  | cons s ss ih =>
    have hrest l (hl : .jump l ∈ ss) := hjumps l (.tail s hl)
    rw [labels_codes_cons, List.forall_mem_append] at h
    refine Code.refers_append.mpr ?_
    cases s with
    | label l => exact ⟨by simp [Strand.code], ih hparts hrest h.2⟩
    | jump l => exact ⟨by simp [Strand.code, jump, hjumps l (.head ss)], ih hparts hrest h.2⟩
    | part c => exact ⟨hparts.1 h.1, ih hparts.2 hrest h.2⟩

/-- Code in strands is wired if its parts are, as far as labels of the strands are there for them
too, and jumps go to such labels. -/
theorem wiredAt_codes {ss : List Strand} {ls : List String} (hn : Numbered site.fn lo hi ls)
    (hls : ∀ l, ls.count l = (Strand.codes ss).labels.count l)
    (hjumps : ∀ l, .jump l ∈ ss → .label l ∈ ss)
    (hparts : Loops names site → (∀ l, .label l ∈ ss → names l) →
      Strand.Each (fun _ c => (∀ l ∈ c.labels, names l) → c.Refers (HasKey frame) names) 0 ss) :
    WiredAt frame names site lo hi (Strand.codes ss) := by
  refine ⟨hn.perm (List.perm_iff_count.mpr hls), fun hloop h => ?_⟩
  have hown l (hl : .label l ∈ ss) : names l := by
    obtain ⟨pre, post, rfl⟩ := List.append_of_mem hl
    exact h l (by simp [Strand.codes, Strand.code])
  exact refers_codes (hparts hloop hown) (fun l hl => hown l (hjumps l hl)) h

theorem LoweredTest.wired {scope : Scope} {s s' : Supply} {test : Option Expr}
    {code : Option Code} (h : LoweredTest fn scope s test code s')
    (hs : Provides (HasKey frame) names scope) {exit : String} :
    Numbered fn s.labels s'.labels (testCode exit code).labels ∧
      (names exit → (∀ l ∈ (testCode exit code).labels, names l) →
        (testCode exit code).Refers (HasKey frame) names) := by
  cases h with
  | absent => exact ⟨.nil le_rfl, fun _ _ => by simp [testCode]⟩
  | present hl =>
    have hw := wired_of_lower hs hl
    refine ⟨by simpa [testCode, conditionCode, jumpIfZero] using hw.labels, fun hexit h => ?_⟩
    have hr := hw.refers fun l hl => h l (by simpa [testCode, conditionCode, jumpIfZero] using hl)
    simp [testCode, conditionCode, jumpIfZero, hr, hexit, r0]

theorem wiredAt_of_lowerStmts {body : List Stmt}
    (ih : ∀ s ∈ body, ∀ {d d' code}, lowerStmt site s d = .ok (code, d') →
      Provides (HasKey frame) names d.scope → d'.frame.Extends frame →
      WiredAt frame names site d.supply.labels d'.supply.labels code)
    (h : lowerStmts site body d = .ok (code, d'))
    (hs : Provides (HasKey frame) names d.scope) (hx : d'.frame.Extends frame) :
    WiredAt frame names site d.supply.labels d'.supply.labels code := by
  induction body generalizing d code with
  | nil =>
    obtain ⟨rfl, rfl⟩ := lowerStmts_nil_eq_ok.mp h
    exact (wired_plain rfl (by simp) _).at
  | cons stmt rest ihl =>
    obtain ⟨here, d₁, after, hhere, hafter, rfl⟩ := lowerStmts_cons_eq_ok.mp h
    have hx₁ := (leads_of_lowerStmts hafter).frame.trans hx
    exact (ih stmt List.mem_cons_self hhere hs hx₁).append
      (ihl (fun s hs => ih s (List.mem_cons_of_mem _ hs)) hafter
        (hs.follow (leads_of_lowerStmt hhere) hx₁))

/-- **The code of a statement is wired.** -/
theorem wiredAt_of_lowerStmt {stmt : Stmt} (h : lowerStmt site stmt d = .ok (code, d'))
    (hs : Provides (HasKey frame) names d.scope) (hx : d'.frame.Extends frame) :
    WiredAt frame names site d.supply.labels d'.supply.labels code := by
  revert hs hx
  refine lowerStmt_induct (fun {site d stmt c d'} _ hc ih hs hx => WiredAt.located ?_ _) h
  cases hc with
  | declare _ hd => exact (wired_of_declareLocals hd hs hx).at
  | block hb =>
    have hw := wiredAt_of_lowerStmts (fun s hs _ _ _ hr => ih (.inBlock hs) hr) hb hs hx
    exact ⟨hw.labels, hw.refers⟩
  | branch ht hc =>
    obtain ⟨htl, htr⟩ := LoweredTest.wired (.present ht) hs
    have hthen := ih .consequent hc hs hx
    rw [branchCode_eq]
    exact wiredAt_codes ((htl.append hthen.labels).append (.single "endif" (by decide) _))
      (fun l => by simp) (by simp) fun hloop hown =>
        ⟨htr (hown _ (by simp)), hthen.refers hloop, trivial⟩
  | branchElse ht hc ha =>
    obtain ⟨htl, htr⟩ := LoweredTest.wired (.present ht) hs
    have hthen := ih .consequent hc hs ((leads_of_lowerStmt ha).frame.trans hx)
    have helse := ih (.alternate rfl) ha hs hx
    -- labels are numbered in the order in which they are drawn, not in which they stand
    have hn := (((htl.append hthen.labels).append (.single "endif" (by decide) _)).append
      helse.labels).append (.single "else" (by decide) _)
    rw [branchElseCode_eq]
    exact wiredAt_codes hn (fun l => by simp [List.count_cons]; omega) (by simp) fun hloop hown =>
      ⟨htr (hown _ (by simp)), hthen.refers hloop, helse.refers hloop, trivial⟩
  | whileLoop ht hb =>
    obtain ⟨htl, htr⟩ := LoweredTest.wired (.present ht) hs
    have hbody := ih .whileBody hb hs hx
    have hn := ((numbered_pair "while" "endwhile" (by decide) (by decide) site.fn _).append
      htl).append hbody.labels
    rw [whileCode_eq]
    exact wiredAt_codes hn (fun l => by simp [List.count_cons]; omega) (by simp) fun hloop hown =>
      ⟨htr (hown _ (by simp)), hbody.refers (by rintro l ⟨⟩; simp [hown]), trivial⟩
  | doLoop hb ht =>
    obtain ⟨htl, htr⟩ := LoweredTest.wired (.present ht) hs
    have hbody := ih .doBody hb hs hx
    have hn := ((numbered_triple "do" "test" "enddo" (by decide) (by decide) (by decide) site.fn
      _).append hbody.labels).append htl
    rw [doCode_eq]
    exact wiredAt_codes hn (fun l => by simp [List.count_cons]; omega) (by simp) fun hloop hown =>
      ⟨hbody.refers (by rintro l ⟨⟩; simp [hown]), htr (hown _ (by simp)), trivial⟩
  | @forLoop _ _ _ _ _ initCode _ updateCode _ _ s' d₁ d₂ hi ht hb hu =>
    have hx₁ : d₁.frame.Extends frame := (leads_of_lowerStmt hb).frame.trans hx
    -- test, body and update see the variables of the first clause
    have hs₁ : Provides (HasKey frame) names d₁.scope :=
      hs.follow (d.leads_inside.trans (leads_of_loweredInit hi)) hx₁
    have hinit : WiredAt frame names site.inner d.supply.labels d₁.supply.labels initCode := by
      cases hi with
      | absent => exact (wired_plain rfl (by simp) _).at
      | present hi => exact ih (.forInit rfl) (d := d.inside) hi hs hx₁
    obtain ⟨htl, htr⟩ := ht.wired hs₁
    have hbody := ih .forBody hb hs₁ hx
    have hupdate : Wired (HasKey frame) names site.fn d₂.supply.labels s'.labels updateCode := by
      cases hu with
      | absent => exact wired_plain rfl (by simp) _
      | present hu => exact (wired_of_lowerEffect hs₁ hu).located _
    have hn := (((hinit.labels.append (numbered_triple "for" "next" "endfor" (by decide) (by decide)
      (by decide) site.fn _)).append htl).append hbody.labels).append hupdate.labels
    rw [forCode_eq]
    exact wiredAt_codes hn (fun l => by simp [List.count_cons]; omega) (by simp) fun hloop hown =>
      ⟨hinit.refers hloop, htr (hown _ (by simp)), hbody.refers (by rintro l ⟨⟩; simp [hown]),
        hupdate.refers, trivial⟩
  | ret => exact (wired_plain rfl (by simp) _).at
  | retValue _ hv => exact ((hv.pieced (hs.pieces _ _) 0).wired.then rfl (by simp [rv])).at
  | brk hl => exact ⟨.nil le_rfl, fun hloop _ => by simp [jump, (hloop _ hl).2]⟩
  | cont hl => exact ⟨.nil le_rfl, fun hloop _ => by simp [jump, (hloop _ hl).1]⟩
  | expr he => exact (wired_of_lowerEffect hs he).at

/-- **The code of a function body is wired.** -/
theorem wiredAt_of_lowerBody {body : List Stmt} (hnest : site.nested = false)
    (hempty : d.reserved = []) (h : lowerBody site body d = .ok (code, d'))
    (hs : Provides (HasKey frame) names d.scope) (hx : d'.frame.Extends frame) :
    WiredAt frame names site d.supply.labels d'.supply.labels code := by
  induction body generalizing d code with
  | nil =>
    obtain ⟨rfl, rfl⟩ := lowerBody_nil_eq_ok.mp h
    exact (wired_plain rfl (by simp) _).at
  | cons stmt rest ih =>
    obtain ⟨here, d₁, after, hhere, hafter, rfl⟩ := lowerBody_cons_eq_ok.mp h
    obtain ⟨slots, hg, hdef, hndef, -⟩ := Setting.grows_of_bodyStmt hnest hempty hhere
    obtain ⟨_, hg'⟩ := Setting.grows_of_lowerBody hnest rfl hafter
    have hx₁ : d₁.frame.Extends frame := hg'.frame.trans hx
    have hreserved : d₁.reserved.labels = [] ∧ d₁.reserved.Refers (HasKey frame) names := by
      by_cases hd : Deferred site stmt
      · rw [hdef hd]
        exact hg.slots.plain
      · rw [hndef hd]
        exact ⟨rfl, by simp⟩
    have hs₁ : Provides (HasKey frame) names d₁.scope := hs.follow (leads_of_lowerStmt hhere) hx₁
    have hrest := ih rfl hafter hs₁
    exact ((wired_plain hreserved.1 hreserved.2 _).at.append
      (wiredAt_of_lowerStmt hhere hs hx₁)).append hrest

end Statements

/-! ## Functions -/

/-- A drafted function: its parameters were added and its body lowered. -/
theorem draftFunction_eq_ok {f : Function} {scope : Scope} {globals : GlobalLayout} {code : Code}
    {d' : Draft} (h : draftFunction f (.start scope globals) = .ok (code, d')) :
    ∃ d body, Bound (.start scope globals) (namedParams f.parameters) d ∧
      lowerBody ⟨f.name, f.ret, none, false⟩ f.body d = .ok (body, d') ∧
      code = functionCode f body := by
  simp only [draftFunction, stateT_bind_eq_ok, stateT_pure_eq_ok] at h
  obtain ⟨_, d, hp, body, _, hb, ⟨⟩⟩ := h
  exact ⟨d, body, bound_of_declareParameters hp, hb, rfl⟩

/-- Parameters are in the frame under the keys that their names stand for. -/
theorem provides_of_bound {names : String → Prop} {d d' : Draft} {ps : List (Ty × String)}
    (h : Bound d ps d') (hs : Provides (HasKey frame) names d.scope) (hx : d'.frame.Extends frame) :
    Provides (HasKey frame) names d'.scope := by
  induction h with
  | nil => exact hs
  | @cons d d' ty name rest scope hd hrest ih =>
    refine ih (hs.declare ?_ hd) hx
    rintro _ ⟨⟩
    exact ⟨_, hx.entries ((Compiler.bound_frame hrest).1.entries (Table.get?_insert_self _ _ _))⟩

/-- **The code of a function is wired**: its first label is its name, the others are its own, and
every variable that it refers to has a key in its frame. -/
theorem wired_functionCode {names : String → Prop} {scope : Scope} {globals : GlobalLayout}
    {f : Function} {d d' : Draft} {body : Code}
    (hbound : Bound (.start scope globals) (namedParams f.parameters) d)
    (hbody : lowerBody ⟨f.name, f.ret, none, false⟩ f.body d = .ok (body, d'))
    (hs : Provides (fun _ => False) names scope) :
    (functionCode f body).labels = f.name :: body.labels ∧
      Numbered f.name 0 d'.supply.labels body.labels ∧
      ((∀ l ∈ body.labels, names l) → (functionCode f body).Refers (HasKey d'.frame) names) := by
  obtain ⟨hsupply, hreserved, -⟩ := Compiler.bound_unchanged hbound
  obtain ⟨_, hg⟩ := Setting.grows_of_lowerBody rfl hreserved hbody
  have hstart : Provides (HasKey d'.frame) names (Draft.start scope globals).scope := by
    intro name symbol hsym
    rw [Draft.start, Scope.lookup?_child] at hsym
    have hmeans := hs hsym
    split at hmeans
    · exact fun key hkey => (hmeans key hkey).elim
    · exact hmeans
  have hw := wiredAt_of_lowerBody rfl hreserved hbody (provides_of_bound hbound hstart hg.frame)
    (.refl _)
  rw [hsupply] at hw
  refine ⟨by simp [functionCode], hw.labels, fun hl => ?_⟩
  have hr := hw.refers (by rintro l ⟨⟩) hl
  simp [functionCode, hr]

/-- A variable whose key is in the frame gets an address. -/
theorem resolve_of_refers {names : String → Prop} {o : Operand}
    (h : o.Refers (HasKey frame) names) :
    ∃ o', frame.resolve fn o = .ok o' ∧ o'.Refers (fun _ => False) names := by
  cases o with
  | var key index =>
    obtain ⟨e, he⟩ := h
    refine ⟨.ptr ⟨.frame, e.offset, index⟩, ?_, trivial⟩
    simp [FrameLayout.resolve, FrameLayout.offset?, he]
  | label l => exact ⟨_, rfl, h⟩
  | _ => exact ⟨_, rfl, trivial⟩

/-- Addresses of variables leave the labels alone. -/
theorem labels_of_resolveCode {code c : Code} (h : resolveCode frame fn code = .ok c) :
    c.labels = code.labels := by
  induction code generalizing c with
  | nil =>
    cases h
    rfl
  | cons line code ih =>
    cases line with
    | label l =>
      simp only [resolveCode, bind_eq_ok, pure_eq_ok] at h
      obtain ⟨rest, hrest, rfl⟩ := h
      rw [Code.labels_cons_label, Code.labels_cons_label, ih hrest]
    | instr i =>
      simp only [resolveCode, bind_eq_ok, pure_eq_ok] at h
      obtain ⟨_, -, rest, hrest, rfl⟩ := h
      rw [Code.labels_cons_instr, Code.labels_cons_instr, ih hrest]

/-- Code whose variables are in the frame gets its addresses. -/
theorem resolveCode_of_refers {names : String → Prop} {code : Code}
    (h : code.Refers (HasKey frame) names) :
    ∃ c, resolveCode frame fn code = .ok c ∧ c.Refers (fun _ => False) names := by
  induction code with
  | nil => exact ⟨[], rfl, by simp⟩
  | cons line code ih =>
    cases line with
    | label l =>
      obtain ⟨c, hc, hr⟩ := ih h
      refine ⟨.label l :: c, ?_, hr⟩
      simp only [resolveCode, bind_eq_ok, pure_eq_ok]
      exact ⟨c, hc, rfl⟩
    | instr i =>
      obtain ⟨hi, hrest⟩ := Code.refers_cons_instr.mp h
      obtain ⟨c, hc, hr⟩ := ih hrest
      obtain ⟨j, hj, hjr⟩ := Instr.mapOperands_of_forall fun o ho => resolve_of_refers (hi o ho)
      refine ⟨.instr j :: c, ?_, Code.refers_cons_instr.mpr ⟨hjr, hr⟩⟩
      simp only [resolveCode, bind_eq_ok, pure_eq_ok]
      exact ⟨j, hj, c, hc, rfl⟩

end Stepwise.Lowering
