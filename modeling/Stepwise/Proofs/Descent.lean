import Mathlib
import Stepwise.Proofs.StackDiscipline

/-!
# Code without a way back

In the code of statements without loops every jump goes forward, whatever operators and branches
they are made of, and every call of a compiled function is one that the statements have. Both are
read off the code while its labels are still names: a jump goes to a label that comes later. Once
the code is assembled, such a jump has a positive distance.

## Main definitions

* `Stmt.calls`, `Stmt.isLoopFree`: the names that are called, and whether a loop occurs
* `Code.Descends`, `Code.Sinks`: jumps go forward and calls go to given functions

## Main results

* `Lowering.Pieced.sinks`, `Lowering.sinks_of_lowerStmt`: generated code descends
* `exists_distance_of_descends`: a jump of code that descends has a positive distance
-/

namespace Stepwise

open Lowering

/-! ## Calls and loops of a program -/

/-- The names that the initial values of variables call. -/
def Declaration.calls (decl : Declaration) : List String :=
  decl.declarators.flatMap fun dr => dr.initializer.elim [] Expr.calls

mutual

/-- The names that a statement calls. -/
def Stmt.calls : Stmt → List String
  | .function _ _ body _ _ | .block body _ => Stmt.callsAll body
  | .declare decl => decl.calls
  | .branch test consequent alternate _ =>
    test.calls ++ consequent.calls ++ match alternate with
      | some s => s.calls
      | none => []
  | .whileLoop test body _ | .doLoop body test _ => test.calls ++ body.calls
  | .forLoop init test update body _ =>
    (match init with
      | some s => s.calls
      | none => []) ++ test.elim [] Expr.calls ++ update.elim [] Expr.calls ++ body.calls
  | .ret argument _ => argument.elim [] Expr.calls
  | .brk _ | .cont _ => []
  | .expr e _ => e.calls

@[inherit_doc Stmt.calls]
def Stmt.callsAll : List Stmt → List String
  | [] => []
  | s :: rest => s.calls ++ Stmt.callsAll rest

end

mutual

/-- No loop occurs in a statement. -/
def Stmt.isLoopFree : Stmt → Bool
  | .function _ _ body _ _ | .block body _ => Stmt.allLoopFree body
  | .branch _ consequent alternate _ =>
    consequent.isLoopFree && match alternate with
      | some s => s.isLoopFree
      | none => true
  | .whileLoop _ _ _ | .doLoop _ _ _ | .forLoop _ _ _ _ _ => false
  | .declare _ | .ret _ _ | .brk _ | .cont _ | .expr _ _ => true

@[inherit_doc Stmt.isLoopFree]
def Stmt.allLoopFree : List Stmt → Bool
  | [] => true
  | s :: rest => s.isLoopFree && Stmt.allLoopFree rest

end

theorem Stmt.allLoopFree_iff {stmts : List Stmt} :
    Stmt.allLoopFree stmts = true ↔ ∀ s ∈ stmts, s.isLoopFree = true := by
  induction stmts with
  | nil => simp [Stmt.allLoopFree]
  | cons s rest ih => simp [Stmt.allLoopFree, ih]

theorem Stmt.calls_subset_callsAll {stmts : List Stmt} {s : Stmt} (h : s ∈ stmts) :
    s.calls ⊆ Stmt.callsAll stmts := by
  induction stmts with
  | nil => cases h
  | cons t rest ih =>
    rw [Stmt.callsAll]
    rcases List.mem_cons.mp h with rfl | h
    · exact List.subset_append_left _ _
    · exact List.subset_append_of_subset_right _ (ih h)

/-! ## Code that descends -/

/-- A jump goes to a label that comes `later`, or by a positive distance, and a call of a compiled
function has the name of one of the `callees` as its remark. -/
def Instr.Descends (callees : List String) (later : Code) (i : Instr) : Prop :=
  match i.op, i.dest with
  | .rjmp, some (.label l) => .label l ∈ later
  | .rjmp, some (.imm (.int n)) => 0 < n.toInt
  | .rjmp, _ => False
  | .call, some (.host _) => True
  | .call, _ => ∃ name ∈ callees, i.comment = some name
  | _, _ => True

/-- Each instruction of a piece of code descends, where `after` is the code behind the piece. -/
def Code.Descends (callees : List String) (after : Code) : Code → Prop
  | [] => True
  | .label _ :: rest => Descends callees after rest
  | .instr i :: rest => i.Descends callees (rest ++ after) ∧ Descends callees after rest

namespace Code

variable {callees : List String} {after : Code}

@[simp]
theorem descends_nil : Descends callees after [] := trivial

@[simp]
theorem descends_cons_label {l : String} {c : Code} :
    Descends callees after (.label l :: c) ↔ Descends callees after c := Iff.rfl

@[simp]
theorem descends_cons_instr {i : Instr} {c : Code} :
    Descends callees after (.instr i :: c) ↔
      i.Descends callees (c ++ after) ∧ Descends callees after c := Iff.rfl

@[simp]
theorem descends_append {c d : Code} :
    Descends callees after (c ++ d) ↔ Descends callees (d ++ after) c ∧ Descends callees after d := by
  induction c with
  | nil => simp
  | cons line c ih => cases line <;> simp [ih, and_assoc]

theorem label_mem_located {l : String} {loc : Location} {c : Code} :
    .label l ∈ located loc c ↔ .label l ∈ c := by
  induction c with
  | nil => simp
  | cons line c ih => cases line <;> simp [ih]

/-- Only the labels of the code behind an instruction matter. -/
theorem descends_congr {i : Instr} {c d : Code} (h : ∀ l, .label l ∈ c ↔ .label l ∈ d) :
    i.Descends callees c ↔ i.Descends callees d := by
  unfold Instr.Descends
  split <;> simp [h]

theorem descends_instr_located {i : Instr} {loc : Location} {c : Code} :
    (i.located loc).Descends callees c ↔ i.Descends callees c := by
  unfold Instr.located
  split <;> rfl

@[simp]
theorem descends_located {loc : Location} {c : Code} :
    Descends callees after (located loc c) ↔ Descends callees after c := by
  induction c with
  | nil => simp
  | cons line c ih =>
    cases line with
    | label l => simp [ih]
    | instr i =>
      have hlater (l : String) : .label l ∈ located loc c ++ after ↔ .label l ∈ c ++ after := by
        simp [label_mem_located]
      simp [ih, descends_instr_located, descends_congr hlater]

/-- A piece of code descends, whatever comes behind it. -/
def Sinks (callees : List String) (c : Code) : Prop := ∀ after, Descends callees after c

theorem sinks_nil : Sinks callees [] := fun _ => trivial

theorem Sinks.append {c d : Code} (hc : Sinks callees c) (hd : Sinks callees d) :
    Sinks callees (c ++ d) := fun after => descends_append.mpr ⟨hc _, hd after⟩

theorem Sinks.located {c : Code} (hc : Sinks callees c) (loc : Location) :
    Sinks callees (located loc c) := fun after => descends_located.mpr (hc after)

/-- An instruction with its place in code that descends. -/
theorem Descends.exists_split {c : Code} {k : Nat} {i : Instr} (h : Descends callees after c)
    (hi : c.instrs[k]? = some i) :
    ∃ pre post : Code, c = pre ++ .instr i :: post ∧ pre.size = k ∧
      i.Descends callees (post ++ after) := by
  induction c generalizing k with
  | nil => simp at hi
  | cons line c ih =>
    cases line with
    | label l =>
      obtain ⟨pre, post, rfl, hk, hd⟩ := ih h hi
      exact ⟨.label l :: pre, post, rfl, hk, hd⟩
    | instr j =>
      rw [instrs_cons_instr] at hi
      cases k with
      | zero =>
        cases hi
        exact ⟨[], c, rfl, rfl, h.1⟩
      | succ k =>
        obtain ⟨pre, post, rfl, hk, hd⟩ := ih h.2 hi
        exact ⟨.instr j :: pre, post, rfl, by rw [size_cons_instr, hk], hd⟩

end Code

/-! ## Assembled code -/

/-- A label of a placed piece names an address between its start and its end. -/
theorem get?_of_placed {p : Assembled} {frame : FrameLayout} {addr : Nat} {c : Code} {l : String}
    (h : Placed p frame addr c) (hl : .label l ∈ c) :
    ∃ a, p.labels.get? l = some a ∧ addr ≤ a ∧ a ≤ addr + c.size := by
  induction c generalizing addr with
  | nil => cases hl
  | cons line c ih =>
    cases line with
    | label name =>
      rcases List.mem_cons.mp hl with hl | hl
      · cases hl
        exact ⟨addr, h.1, le_rfl, Nat.le_add_right _ _⟩
      · exact ih h.2 hl
    | instr i =>
      have hc : .label l ∈ c := by simpa using hl
      obtain ⟨a, ha, hlow, hhigh⟩ := ih h.2 hc
      rw [Code.size_cons_instr]
      exact ⟨a, ha, by omega, by omega⟩

/-- **A jump of code that descends has a positive distance** once the code is assembled. -/
theorem exists_distance_of_descends {p : Assembled} {frame : FrameLayout} {callees : List String}
    {addr k : Nat} {c : Code} {i : Instr} (hsize : p.code.size < 2 ^ 63)
    (hinside : addr + c.size ≤ p.code.size) (hp : Placed p frame addr c)
    (hc : Code.Descends callees [] c) (hi : c.instrs[k]? = some i) (hop : i.op = .rjmp) :
    ∃ n : Int64, i.dest.map (Operand.settle p.labels frame i.op (addr + k)) =
      some (.imm (.int n)) ∧ 0 < n.toInt := by
  obtain ⟨pre, post, rfl, rfl, hd⟩ := hc.exists_split hi
  rw [List.append_nil] at hd
  obtain ⟨-, -, hpost⟩ := (placed_append _ _ _).mp hp
  unfold Instr.Descends at hd
  rw [hop] at hd ⊢
  split at hd
  next l hdest =>
    obtain ⟨a, ha, hlow, hhigh⟩ := get?_of_placed hpost hd
    rw [Code.size_append, Code.size_cons_instr] at hinside
    refine ⟨_, by rw [hdest, Option.map_some, Operand.settle, ha], ?_⟩
    have hto := @toInt_labelTarget_rjmp a (addr + pre.size) _ hsize (by omega) (by omega)
    omega
  next _ n _ hdest => exact ⟨n, by rw [hdest]; rfl, hd⟩
  all_goals simp_all

end Stepwise

namespace Stepwise.Lowering

open Snippet Code

/-! ## Expressions -/

section Descends

variable {callees : List String} {fn : String} {scope : Scope} {s s' : Supply} {e : Expr}
  {code : Code} {dest : Operand} {ty : Ty}

/-- An instruction that neither jumps nor calls. -/
def isPlain (i : Instr) : Bool := i.op ≠ .rjmp && i.op ≠ .call

theorem descends_of_isPlain {i : Instr} {later : Code} (h : isPlain i = true) :
    i.Descends callees later := by
  simp only [isPlain, Bool.and_eq_true, decide_eq_true_eq] at h
  unfold Instr.Descends
  split <;> simp_all

theorem sinks_ofInstrs {is : List Instr} (h : is.all isPlain = true) :
    Sinks callees (ofInstrs is) := by
  intro after
  induction is with
  | nil => trivial
  | cons i is ih =>
    rw [List.all_cons, Bool.and_eq_true] at h
    exact ⟨descends_of_isPlain h.1, ih h.2⟩

/-- Instructions that neither jump nor call may follow. -/
theorem sinks_append_ofInstrs {is : List Instr} (hc : Sinks callees code)
    (h : is.all isPlain = true) : Sinks callees (code ++ ofInstrs is) := hc.append (sinks_ofInstrs h)

/-- A call names the function that it calls. -/
theorem sinks_callCode {name : String} (f : Signature) (argc : Nat) (h : name ∈ callees) :
    Sinks callees (callCode name f argc) := by
  refine fun after => ⟨?_, trivial⟩
  cases hext : f.external with
  | true => simp [Instr.Descends, Instr.call, Instr.binary, Instr.withComment, callTarget, hext]
  | false =>
    have hname : ∃ l ∈ callees, some name = some l := ⟨name, h, rfl⟩
    simpa [Instr.Descends, Instr.call, Instr.binary, Instr.withComment, callTarget, hext] using hname

theorem sinks_zeroTest (zero : Bool) : Sinks callees (zeroTest zero) := by
  refine fun after => ⟨trivial, ?_, trivial, trivial, trivial⟩
  show 0 < (2 : Int64).toInt
  decide

theorem sinks_comparisonCode {shift : List Instr} (h : shift.all isPlain = true) (zero : Bool) :
    Sinks callees (comparisonCode shift zero) :=
  Sinks.append (fun _ => ⟨trivial, sinks_ofInstrs h _⟩) (sinks_zeroTest zero)

theorem sinks_applyCode (op : BinaryOp) : Sinks callees (applyCode op) := by
  cases op with
  | eq | ne | lt | le | gt | ge => exact sinks_comparisonCode rfl _
  | and | or => exact sinks_nil
  | mod => exact sinks_ofInstrs rfl
  | add | sub | mul | div | bitAnd | bitOr | bitXor => exact sinks_ofInstrs rfl

variable {leftCode rightCode : Code}

theorem sinks_binaryCode (op : BinaryOp) (hl : Sinks callees leftCode)
    (hr : Sinks callees rightCode) : Sinks callees (binaryCode op leftCode rightCode) :=
  (sinks_append_ofInstrs (hl.append hr) rfl).append (sinks_applyCode op)

theorem sinks_unaryCode (op : UnaryOp) (hc : Sinks callees code) :
    Sinks callees (unaryCode op code) := by
  refine hc.append ?_
  cases op with
  | neg => exact sinks_ofInstrs rfl
  | not => exact (sinks_ofInstrs rfl).append (sinks_zeroTest true)
  | _ => exact sinks_nil

/-- A test jumps to a label behind it. -/
theorem descends_popTest {target : String} {after : Code} (h : .label target ∈ after) :
    Descends callees after (popTest target) :=
  ⟨trivial, h, trivial⟩

theorem sinks_truthCode (l : TruthLabels) : Sinks callees (truthCode l) := by
  intro after
  have hdone : .label l.done ∈ [.label l.no, .instr (.ldi .r2 (.bool false)), .label l.done,
      .instr (.push r2)] ++ after := by simp
  exact ⟨trivial, hdone, trivial, trivial, trivial⟩

theorem sinks_andCode (l : TruthLabels) (hl : Sinks callees leftCode)
    (hr : Sinks callees rightCode) : Sinks callees (andCode l leftCode rightCode) := by
  intro after
  simp only [andCode, descends_append]
  refine ⟨⟨⟨⟨hl _, ?_⟩, hr _⟩, ?_⟩, sinks_truthCode l after⟩
  all_goals exact descends_popTest (by simp [truthCode])

theorem sinks_orCode (l : TruthLabels) (other : String) (hl : Sinks callees leftCode)
    (hr : Sinks callees rightCode) : Sinks callees (orCode l other leftCode rightCode) := by
  intro after
  simp only [orCode, descends_append]
  refine ⟨⟨⟨⟨⟨hl _, ?_⟩, ?_, trivial⟩, hr _⟩, ?_⟩, sinks_truthCode l after⟩
  · exact descends_popTest (by simp)
  · show Line.label l.yes ∈ _
    simp [truthCode]
  · exact descends_popTest (by simp [truthCode])

theorem Moves.descends {place : Operand → Prop} {m n : Nat} {i : Instr} {later : Code}
    (h : Moves place s m i n) : i.Descends callees later := by
  cases h with
  | push | pop | mov => exact descends_of_isPlain rfl
  | step op => exact descends_of_isPlain (by cases op <;> rfl)

/-- **Code made of pieces descends** to the functions that it calls. -/
theorem Pieced.sinks {place : Operand → Prop} {m n : Nat}
    (h : Pieced fn place (fun name _ _ => name ∈ callees) m s code n s') : Sinks callees code := by
  induction h with
  | nil => exact sinks_nil
  | instr hi _ ih => exact fun after => ⟨hi.descends, ih after⟩
  | append _ _ ih ih' => exact ih.append ih'
  | located loc _ ih => exact ih.located loc
  | cell _ _ ih => exact ih
  | unary op _ ih => exact sinks_unaryCode op ih
  | binary _ _ _ ih ih' => exact sinks_binaryCode _ ih ih'
  | and _ _ ih ih' => exact sinks_andCode _ ih ih'
  | or _ _ ih ih' => exact sinks_orCode _ _ ih ih'
  | call _ hname ih => exact ih.append (sinks_callCode _ _ hname)

/-- The code of an expression calls what the expression calls. -/
theorem pieces_of_calls_subset (fn : String) (scope : Scope) (hsub : e.calls ⊆ callees) :
    Pieces fn (fun _ => True) (fun name _ _ => name ∈ callees) (lower fn scope e) :=
  pieced_of_lower (offers_any scope) fun _ _ _ hname _ _ => hsub hname

theorem sinks_of_lower (hsub : e.calls ⊆ callees)
    (h : lower fn scope e s = .ok ((code, ty), s')) : Sinks callees code :=
  (pieces_of_calls_subset fn scope hsub h 0).sinks

/-! ## Statements -/

/-- Code that reserves slots descends. -/
theorem SlotCode.sinks {frame : FrameLayout} {k : Nat} (h : SlotCode frame k code) :
    Sinks callees code := by
  intro after
  induction code generalizing k with
  | nil => trivial
  | cons line code ih =>
    cases line with
    | label name => exact h.elim
    | instr i =>
      obtain ⟨⟨v, comment, hi, -⟩, hrest⟩ := h
      have hop : i.op = .push := congrArg Instr.op hi
      exact ⟨descends_of_isPlain (by simp [isPlain, hop]), ih hrest⟩

theorem sinks_arraySlots (ty : Ty) (dr : Declarator) (n : Nat) :
    Sinks callees (arraySlots ty dr n) := by
  refine sinks_ofInstrs (List.all_eq_true.mpr fun i hi => ?_)
  obtain ⟨k, -, rfl⟩ := List.mem_map.mp hi
  rfl

section Stmt

variable {site : Site} {d d' : Draft} {dr : Declarator} {decl : Declaration}

theorem Initialized.sinks {initial : Initial} (h : Initialized site ty dest d dr initial s)
    (hsub : dr.initializer.elim [] Expr.calls ⊆ callees) (name : String) :
    Sinks callees (initial.storeCode ty dest) ∧ Sinks callees (initial.slotCode ty name) := by
  cases h with
  | default => exact ⟨sinks_ofInstrs rfl, sinks_ofInstrs rfl⟩
  | constant => exact ⟨sinks_ofInstrs rfl, sinks_ofInstrs rfl⟩
  | @computed init store _ hinit _ hs =>
    rw [hinit] at hsub
    have hpieces := pieces_of_calls_subset site.fn d.scope hsub
    have hstore := (hs.pieced (offers_any d.scope) trivial hpieces 0).sinks
    exact ⟨hstore, (sinks_ofInstrs rfl).append hstore⟩

theorem Declared.sinks (h : Declared site decl d dr code d')
    (hsub : dr.initializer.elim [] Expr.calls ⊆ callees) : Sinks callees code := by
  cases h with
  | array =>
    split
    · exact sinks_nil
    · exact sinks_arraySlots _ _ _
  | scalar _ hi _ =>
    refine Sinks.located ?_ _
    split
    · exact (hi.sinks hsub dr.name).1
    · exact (hi.sinks hsub dr.name).2

theorem sinks_of_declareLocals {drs : List Declarator}
    (hsub : ∀ dr ∈ drs, dr.initializer.elim [] Expr.calls ⊆ callees)
    (h : declareLocals site decl drs d = .ok (code, d')) : Sinks callees code := by
  induction drs generalizing d code with
  | nil =>
    cases h
    exact sinks_nil
  | cons dr rest ih =>
    obtain ⟨here, d₁, next, hhere, hnext, rfl⟩ := declareLocals_cons_eq_ok h
    obtain ⟨hfirst, hrest⟩ := List.forall_mem_cons.mp hsub
    exact (hhere.sinks hfirst).append (ih hrest hnext)

theorem sinks_of_lowerStmts {body : List Stmt}
    (ih : ∀ stmt ∈ body, ∀ {d d' : Draft} {code : Code}, lowerStmt site stmt d = .ok (code, d') →
      Sinks callees code)
    (h : lowerStmts site body d = .ok (code, d')) : Sinks callees code := by
  induction body generalizing d code with
  | nil =>
    obtain ⟨rfl, -⟩ := lowerStmts_nil_eq_ok.mp h
    exact sinks_nil
  | cons stmt rest ih' =>
    obtain ⟨here, d₁, next, hhere, hnext, rfl⟩ := lowerStmts_cons_eq_ok.mp h
    obtain ⟨hfirst, hrest⟩ := List.forall_mem_cons.mp ih
    exact (hfirst hhere).append (ih' hrest hnext)

theorem sinks_branchCode {done : String} {test consequent : Code} (ht : Sinks callees test)
    (hc : Sinks callees consequent) : Sinks callees (branchCode done test consequent) := by
  intro after
  simp only [branchCode, conditionCode, descends_append]
  refine ⟨⟨⟨⟨ht _, sinks_ofInstrs rfl _⟩, ?_, trivial⟩, hc _⟩, trivial⟩
  show Line.label done ∈ _
  simp

theorem sinks_branchElseCode {done other : String} {test consequent alternate : Code}
    (ht : Sinks callees test) (hc : Sinks callees consequent) (ha : Sinks callees alternate) :
    Sinks callees (branchElseCode done other test consequent alternate) := by
  intro after
  simp only [branchElseCode, conditionCode, descends_append]
  refine ⟨⟨⟨⟨⟨⟨ht _, sinks_ofInstrs rfl _⟩, ?_, trivial⟩, hc _⟩, ?_, trivial⟩, ha _⟩, trivial⟩
  · show Line.label other ∈ _
    simp
  · show Line.label done ∈ _
    simp

/-- **The code of a statement without loops descends** to the functions that it calls. -/
theorem sinks_of_lowerStmt {stmt : Stmt} (hfree : stmt.isLoopFree = true)
    (hsub : stmt.calls ⊆ callees) (hloop : site.loop = none)
    (h : lowerStmt site stmt d = .ok (code, d')) : Sinks callees code := by
  revert hfree hsub hloop
  refine lowerStmt_induct (fun {site d stmt c d'} _ hc ih hfree hsub hloop => Sinks.located ?_ _) h
  -- without loops every jump leads forward, to the label behind a branch
  cases hc with
  | declare _ hd =>
    refine sinks_of_declareLocals (fun dr hdr => ?_) hd
    rw [Stmt.calls, Declaration.calls] at hsub
    exact fun name hname => hsub (List.mem_flatMap.mpr ⟨dr, hdr, hname⟩)
  | block hb =>
    rw [Stmt.isLoopFree, Stmt.allLoopFree_iff] at hfree
    rw [Stmt.calls] at hsub
    refine sinks_of_lowerStmts (fun stmt hs _ _ _ hr => ?_) hb
    exact ih (.inBlock hs) hr (hfree stmt hs)
      (List.Subset.trans (Stmt.calls_subset_callsAll hs) hsub) hloop
  | branch ht hcons =>
    simp only [Stmt.isLoopFree, Bool.and_true] at hfree
    simp only [Stmt.calls, List.append_nil, List.append_subset] at hsub
    exact sinks_branchCode (sinks_of_lower hsub.1 ht) (ih .consequent hcons hfree hsub.2 hloop)
  | branchElse ht hcons halt =>
    simp only [Stmt.isLoopFree, Bool.and_eq_true] at hfree
    simp only [Stmt.calls, List.append_subset] at hsub
    exact sinks_branchElseCode (sinks_of_lower hsub.1.1 ht)
      (ih .consequent hcons hfree.1 hsub.1.2 hloop) (ih (.alternate rfl) halt hfree.2 hsub.2 hloop)
  | whileLoop | doLoop | forLoop => cases hfree
  | ret _ => exact sinks_ofInstrs rfl
  | retValue _ hv =>
    exact sinks_append_ofInstrs (hv.pieced (pieces_of_calls_subset _ _ hsub) 0).sinks rfl
  | brk hl => cases hloop.symm.trans hl
  | cont hl => cases hloop.symm.trans hl
  | expr he =>
    have hpieced := pieced_of_lowerEffect (offers_any d.scope) (fun _ _ _ hname _ _ => hsub hname) he 0
    exact hpieced.sinks

theorem sinks_of_lowerBody {body : List Stmt} (hfree : Stmt.allLoopFree body = true)
    (hsub : Stmt.callsAll body ⊆ callees) (hloop : site.loop = none) (hnest : site.nested = false)
    (hempty : d.reserved = []) (h : lowerBody site body d = .ok (code, d')) :
    Sinks callees code := by
  induction body generalizing d code with
  | nil =>
    obtain ⟨rfl, -⟩ := lowerBody_nil_eq_ok.mp h
    exact sinks_nil
  | cons stmt rest ih =>
    obtain ⟨here, d₁, next, hhere, hnext, rfl⟩ := lowerBody_cons_eq_ok.mp h
    rw [Stmt.allLoopFree, Bool.and_eq_true] at hfree
    rw [Stmt.callsAll, List.append_subset] at hsub
    -- the reservations in front of the statement are code for slots
    have hreserved : Sinks callees d₁.reserved := by
      obtain ⟨slots, hg, hdef, hinline, -⟩ := Setting.grows_of_bodyStmt hnest hempty hhere
      by_cases hd : Deferred site stmt
      · rw [hdef hd]
        exact hg.slots.sinks
      · rw [hinline hd]
        exact sinks_nil
    have hstmt := sinks_of_lowerStmt hfree.1 hsub.1 hloop hhere
    exact (hreserved.append hstmt).append (ih hfree.2 hsub.2 rfl hnext)

end Stmt

end Descends

end Stepwise.Lowering

namespace Stepwise

/-- The names that a function calls. -/
def Function.calls (f : Function) : List String := Stmt.callsAll f.body

/-- **The code of a function without loops descends** to the functions that it calls. -/
theorem Compiler.Definition.Compiled.descends {d : Definition} (h : d.Compiled)
    (hfree : Stmt.allLoopFree d.source.body = true) :
    Code.Descends d.source.calls [] d.draft := by
  have hbody := Lowering.sinks_of_lowerBody hfree (List.Subset.refl _) rfl rfl h.start_reserved
    h.lowered
  exact Lowering.sinks_append_ofInstrs hbody rfl []

end Stepwise
