import Mathlib
import Stepwise.Proofs.ExprTyping

/-!
# The types of statements

Where a statement starts, nothing but the slots of variables lies on the stack and nothing is known
of registers, whatever the way there. So the expressions of the statement stand as their types ask
for, and each instruction of its code works with values of the right types.

## Main definitions

* `Stands`, `Checked`: code at an address where a statement may start, and code with all its
  instructions checked
* `Poses`: a statement in a routine, with all that the types of its expressions rely on
* `Assured`: an expression of a statement leaves a value of its type, as far as it leaves one

## Main results

* `Poses.part`: the parts of a statement stand as the statement does
* `vouched_of_poses`: a statement is checked and its expressions are assured
-/

namespace Stepwise.TypedSetting

open Snippet Lowering

variable {S : TypedSetting} {f : Routine} {r addr : Nat} {c d : Code}

/-! ## Code of statements at its address -/

/-- Code stands at an address where `r` slots are reserved and nothing is known of `R2`. -/
def Stands (S : TypedSetting) (f : Routine) (r addr : Nat) (c : Code) : Prop :=
  ∃ t : Stage, t.regs .r2 = none ∧ r ≤ t.slots ∧ S.Staged f t addr c

/-- Each instruction of a piece of code is checked. -/
def Checked (S : TypedSetting) (f : Routine) (addr : Nat) (c : Code) : Prop :=
  ∀ k < c.size, S.Checks f (addr + k)

variable {loc : Location} {l fn name : String} {t : Stage} {s s' : Supply} {scope : Scope} {ty : Ty}
  {frame : FrameLayout} {code here : Code} {d' d₁ : Draft} {decl : Declaration} {dr : Declarator}
  {site : Site} {drs : List Declarator} {stmt : Stmt} {symbol : Symbol} {o : Occurrence}

@[simp]
theorem stands_located : S.Stands f r addr (Code.located loc c) ↔ S.Stands f r addr c := by
  simp [Stands]

theorem Stands.append_left (h : S.Stands f r addr (c ++ d)) : S.Stands f r addr c := by
  obtain ⟨t, hquiet, hslots, hstaged⟩ := h
  exact ⟨t, hquiet, hslots, (staged_append.mp hstaged).1⟩

theorem Stands.append_right (h : S.Stands f r addr (c ++ d)) (hc : S.Calm f c) :
    S.Stands f (r + c.reservations) (addr + c.size) d := by
  obtain ⟨t, hquiet, hslots, hstaged⟩ := h
  refine ⟨S.walk f t addr c, hc hquiet, ?_, (staged_append.mp hstaged).2⟩
  rw [slots_walk]
  omega

/-- Behind code that reserves no slots. -/
theorem Stands.after (h : S.Stands f r addr (c ++ d)) (hc : S.Calm f c) :
    S.Stands f r (addr + c.size) d := by
  obtain ⟨t, hquiet, hslots, hstaged⟩ := h.append_right hc
  exact ⟨t, hquiet, by omega, hstaged⟩

theorem checked_nil : S.Checked f addr [] := fun k hk => absurd hk (Nat.not_lt_zero k)

@[simp]
theorem checked_append :
    S.Checked f addr (c ++ d) ↔ S.Checked f addr c ∧ S.Checked f (addr + c.size) d := by
  constructor
  · intro h
    refine ⟨fun k hk => h k ?_, fun k hk => ?_⟩
    · rw [Code.size_append]
      omega
    · have hk' := h (c.size + k) (by rw [Code.size_append]; omega)
      rwa [← Nat.add_assoc] at hk'
  · rintro ⟨hc, hd⟩ k hk
    rw [Code.size_append] at hk
    by_cases hlt : k < c.size
    · exact hc k hlt
    · have hk' := hd (k - c.size) (by omega)
      rwa [Nat.add_assoc, Nat.add_sub_of_le (by omega)] at hk'

@[simp]
theorem checked_located : S.Checked f addr (Code.located loc c) ↔ S.Checked f addr c := by
  simp [Checked]

@[simp]
theorem checked_label : S.Checked f addr [.label l] := checked_nil

theorem checked_of_accepted (hs : S.Staged f t addr c) (ha : S.Accepted f t addr c) :
    S.Checked f addr c := fun _ hk => checks_of_accepted hs ha hk

/-- A routine that keeps the discipline of the stack, and whose variables have slots of their
own. -/
structure Disciplined (S : TypedSetting) (f : Routine) : Prop where
  admitted : S.Admitted f 1 1 f.entry f.code
  frame : f.frame.Sound
  size_lt : f.code.size < 2 ^ 63

/-- Where nothing but variables lies on the stack, a stage says so. -/
theorem temps_eq_nil (hf : S.Disciplined f) (hat : f.At r r addr) (hs : S.Staged f t addr c) :
    t.temps = [] := by
  have hlen := length_temps_stage hf.admitted hat.holds
  rw [hat.height, hat.slots] at hlen
  rw [← hs.start.temps]
  exact List.length_eq_zero_iff.mp (by omega)

/-- A label between statements can be jumped to from everywhere between statements. -/
theorem Stands.opens (hf : S.Disciplined f) (h : S.Stands f r addr (.label l :: c))
    (hat : f.At r r addr) : S.Opens f [] l := by
  obtain ⟨t, hquiet, -, hstaged⟩ := h
  have hopens := opens_of_staged hstaged hquiet
  rwa [temps_eq_nil hf hat hstaged] at hopens

/-- A jump to such a label. -/
theorem checked_jump (hf : S.Disciplined f) (h : S.Stands f r addr (jump l :: c))
    (hat : f.At r r addr) (hl : S.Opens f [] l) : S.Checked f addr [jump l] := by
  obtain ⟨t, -, -, hstaged⟩ := h
  rw [← temps_eq_nil hf hat hstaged] at hl
  refine checked_of_accepted (t := t) ?_ ⟨hl.accepts_rjmp, trivial⟩
  exact (staged_append.mp (show S.Staged f t addr ([jump l] ++ c) from hstaged)).1

/-! ## Statements say nothing of `R2` -/

theorem calm_label (l : String) : S.Calm f [.label l] := .label calm_nil

theorem calm_jump (l : String) : S.Calm f [jump l] :=
  .instr calm_nil (by simp [Instr.rjmp, Instr.unary])

theorem calm_codes {ss : List Strand} (h : Strand.Each (fun _ => S.Calm f) 0 ss) :
    S.Calm f (Strand.codes ss) :=
  Strand.codes_of_each calm_nil .append calm_label calm_jump h

/-- The condition of a branch or a loop ends with a test of the value on top. -/
theorem testCode_some (exit : String) (c : Code) : testCode exit (some c) = c ++ popTest exit := by
  simp [testCode, conditionCode, jumpIfZero, popTest]

theorem calm_slotCode {k : Nat} (h : SlotCode frame k c) : S.Calm f c := by
  induction c generalizing k with
  | nil => exact calm_nil
  | cons line c ih =>
    cases line with
    | label name => exact h.elim
    | instr i =>
      obtain ⟨⟨v, comment, hi, -⟩, hrest⟩ := h
      refine .instr (ih hrest) ?_
      have hdest : i.dest = some (.imm v) := congrArg Instr.dest hi
      simp [hdest]

theorem calm_of_declared {d : Draft} (hty : decl.ty ≠ .void) (h : Declared site decl d dr code d') :
    S.Calm f code := by
  cases h with
  | @array n scope _ _ _ =>
    split
    · exact calm_nil
    · have hg : d.Grows (declared site d d.supply decl.ty dr (some n) scope _) _ :=
        grows_declared hty .refl (some n) scope
      exact calm_slotCode hg.slots
  | @scalar initial s scope _ hinit _ =>
    have hpush (v : Value) : S.Calm f (Code.ofInstrs [slotInstr decl.ty dr.name v]) :=
      calm_ofInstrs (by simp [slotInstr, Instr.push, Instr.unary, Instr.withComment])
    have hmov (v : Value) : S.Calm f (Code.ofInstrs [.mov ((newSlot d dr).operand none) (.imm v)]) :=
      calm_ofInstrs (by simp [Instr.mov, Instr.binary, operand_ne_reg])
    rw [calm_located]
    cases hinit with
    | default _ => split <;> [exact hmov _; exact hpush _]
    | constant _ _ => split <;> [exact hmov _; exact hpush _]
    | computed _ _ hst =>
      have hstore : S.Calm f _ :=
        calm_of_pieced (hst.pieced (offers_ne_r2 _) (operand_ne_reg _ _ _) (pieces_ne_r2 _ _ _) 0)
      split
      · exact hstore
      · exact (hpush _).append hstore

theorem calm_of_declareLocals {d : Draft} (hty : decl.ty ≠ .void)
    (h : declareLocals site decl drs d = .ok (code, d')) : S.Calm f code := by
  induction drs generalizing d code with
  | nil =>
    cases h
    exact calm_nil
  | cons dr rest ih =>
    obtain ⟨here, d₁, after, hd, hr, rfl⟩ := declareLocals_cons_eq_ok h
    exact (calm_of_declared hty hd).append (ih hr)

theorem calm_of_lowerStmts {body : List Stmt} {d : Draft}
    (ih : ∀ s ∈ body, ∀ {d d' code}, lowerStmt site s d = .ok (code, d') → S.Calm f code)
    (h : lowerStmts site body d = .ok (code, d')) : S.Calm f code := by
  induction body generalizing d code with
  | nil =>
    obtain ⟨rfl, -⟩ := lowerStmts_nil_eq_ok.mp h
    exact calm_nil
  | cons stmt rest ihl =>
    obtain ⟨here, d₁, after, hhere, hafter, rfl⟩ := lowerStmts_cons_eq_ok.mp h
    exact (ih stmt List.mem_cons_self hhere).append
      (ihl (fun s hs => ih s (List.mem_cons_of_mem _ hs)) hafter)

theorem calm_of_loweredInit {init : Option Stmt} {d : Draft}
    (ih : ∀ s ∈ init, ∀ {d d' code}, lowerStmt site s d = .ok (code, d') → S.Calm f code)
    (h : LoweredInit site d init code d') : S.Calm f code := by
  cases h with
  | absent => exact calm_nil
  | present hi => exact ih _ rfl hi

theorem calm_of_loweredTest {test : Option Expr} {code : Option Code}
    (h : LoweredTest fn scope s test code s') (exit : String) : S.Calm f (testCode exit code) := by
  cases h with
  | absent => exact calm_nil
  | present ht =>
    rw [testCode_some]
    exact (calm_of_lower fn scope _ ht).append (calm_popTest exit)

theorem calm_of_loweredUpdate {update : Option Expr} (h : LoweredUpdate fn scope s update code s') :
    S.Calm f code := by
  cases h with
  | absent => exact calm_nil
  | present hu => exact calm_located.mpr (calm_of_lowerEffect hu)

/-- **The code of a statement says nothing of `R2`.** -/
theorem calm_of_lowerStmt {d : Draft} (h : lowerStmt site stmt d = .ok (code, d')) :
    S.Calm f code := by
  -- branches and loops are lists of strands, so that each case only names its parts
  refine lowerStmt_induct (fun _ hc ih => ?_) h
  rw [calm_located]
  cases hc with
  | declare hty hd => exact calm_of_declareLocals hty hd
  | block hb => exact calm_of_lowerStmts (fun s hs _ _ _ hr => ih (.inBlock hs) hr) hb
  | branch ht hthen =>
    rw [branchCode_eq]
    exact calm_codes ⟨calm_of_loweredTest (.present ht) _, ih .consequent hthen, trivial⟩
  | branchElse ht hthen helse =>
    rw [branchElseCode_eq]
    exact calm_codes ⟨calm_of_loweredTest (.present ht) _, ih .consequent hthen,
      ih (.alternate rfl) helse, trivial⟩
  | whileLoop ht hb =>
    rw [whileCode_eq]
    exact calm_codes ⟨calm_of_loweredTest (.present ht) _, ih .whileBody hb, trivial⟩
  | doLoop hb ht =>
    rw [doCode_eq]
    exact calm_codes ⟨ih .doBody hb, calm_of_loweredTest (.present ht) _, trivial⟩
  | forLoop hi ht hb hu =>
    rw [forCode_eq]
    exact calm_codes ⟨calm_of_loweredInit (fun s hs _ _ _ hr => ih (.forInit hs) hr) hi,
      calm_of_loweredTest ht _, ih .forBody hb, calm_of_loweredUpdate hu, trivial⟩
  | ret _ => exact .instr calm_nil (by simp [Instr.ret, Instr.nullary])
  | retValue _ hv =>
    refine (calm_of_pieced (hv.pieced (pieces_ne_r2 _ _ _) 0)).append (calm_ofInstrs ?_)
    simp [Instr.pop, Instr.unary, Instr.ret, Instr.nullary, rv]
  | brk _ | cont _ => exact calm_jump _
  | expr he => exact calm_of_lowerEffect he

theorem calm_of_ordinary (h : Ordinary c) : S.Calm f c := by
  cases h with
  | test ht => exact calm_of_loweredTest ht _
  | update hu => exact calm_of_loweredUpdate hu
  | stmt _ hi => exact calm_of_loweredInit (fun _ _ _ _ _ => calm_of_lowerStmt) hi
  | stmts _ hb => exact calm_of_lowerStmts (fun _ _ _ _ _ => calm_of_lowerStmt) hb

/-! ## Names after a statement -/

theorem denotes_of_fresh (h : Fresh frame symbol) (hx : frame.Extends f.frame) (hf : f.frame.Sound) :
    S.Denotes f frame.next name symbol := by
  rcases symbol with ⟨ty, isArray, length, value, offset | key⟩ | sig
  · exact h.elim
  · obtain ⟨e, n, he, hty, hn, hspan, hle⟩ := h
    refine ⟨e, hx.entries he, hty, .inr ⟨?_, hspan, by omega⟩⟩
    -- only parameters lie below the link slot, and no variable in it
    rcases hf.placed (hx.entries he) with ⟨-, -, hneg⟩ | ⟨hpos, -⟩
    · omega
    · exact hpos
  · exact h.elim

/-- Names keep their meanings, and new ones get theirs from the frame. -/
theorem Describes.follow {d : Draft} (hdesc : S.Describes f d.frame.next d.scope) (hl : d.Leads d')
    (hx : d'.frame.Extends f.frame) (hf : f.frame.Sound) :
    S.Describes f d'.frame.next d'.scope := by
  intro name symbol hs
  rcases hl.names hs with hold | hfresh
  · exact (hdesc hold).mono hl.frame.next
  · exact denotes_of_fresh hfresh hx hf

/-! ## Statements at their addresses -/

/-- The code of a statement, or of several, is seated; the names in scope have the types that the
scope says, and the loop around it can be left and gone on with. -/
structure Posed (S : TypedSetting) (f : Routine) (r : Nat) (site : Site) (d d' : Draft) (addr : Nat)
    (code : Code) : Prop where
  seated : S.Seated f r site d d' addr code
  describes : S.Describes f d.frame.next d.scope
  loop : ∀ l, site.loop = some l → S.Opens f [] l.next ∧ S.Opens f [] l.exit
  ret : site.ret = (S.header f).ret
  stands : S.Stands f r addr code

/-- Code in strands at its address, where nothing but variables lies on the stack. -/
structure Strung (S : TypedSetting) (f : Routine) (r addr : Nat) (ss : List Strand) : Prop where
  laid : Laid S.program f r r addr (Strand.codes ss)
  stands : S.Stands f r addr (Strand.codes ss)
  ordinary : Strand.Each (fun _ => Ordinary) addr ss

section Strung

variable {s : Strand} {ss : List Strand} (hf : S.Disciplined f)

include hf

theorem Strung.tail (h : S.Strung f r addr (s :: ss)) :
    S.Strung f r (addr + s.code.size) ss := by
  obtain ⟨hlaid, hst, hord⟩ := h
  cases s with
  | label l => exact ⟨hlaid.2, hst.after (calm_label l), hord⟩
  | jump l =>
    exact ⟨(Laid.seq hf.size_lt (settles_jump l) hlaid).2, hst.after (calm_jump l), hord⟩
  | part c =>
    exact ⟨(Laid.seq hf.size_lt hord.1.settles hlaid).2, hst.after (calm_of_ordinary hord.1),
      hord.2⟩

/-- Each part stands at its address, and all labels can be jumped to. -/
theorem Strung.each (h : S.Strung f r addr ss) :
    Strand.Each (fun a c => S.Stands f r a c ∧ f.At r r a) addr ss ∧
      ∀ ⦃l⦄, .label l ∈ ss → S.Opens f [] l := by
  induction ss generalizing addr with
  | nil => exact ⟨trivial, by simp⟩
  | cons s ss ih =>
    obtain ⟨hparts, hopens⟩ := ih (h.tail hf)
    cases s with
    | label l =>
      refine ⟨hparts, fun l' hl => ?_⟩
      rcases List.mem_cons.mp hl with he | hl
      · cases he
        exact h.stands.opens hf h.laid.start
      · exact hopens hl
    | jump l => exact ⟨hparts, by simpa using hopens⟩
    | part c => exact ⟨⟨⟨h.stands.append_left, h.laid.start⟩, hparts⟩, by simpa using hopens⟩

/-- Code in strands is checked if its parts are and jumps go to labels among the strands. -/
theorem Strung.checked (h : S.Strung f r addr ss) (hjumps : ∀ l, .jump l ∈ ss → .label l ∈ ss)
    (hparts : Strand.Each (S.Checked f) addr ss) : S.Checked f addr (Strand.codes ss) := by
  replace hjumps : ∀ l, .jump l ∈ ss → S.Opens f [] l := fun l hl => (h.each hf).2 (hjumps l hl)
  induction ss generalizing addr with
  | nil => exact checked_nil
  | cons s ss ih =>
    have hrest := ih (h.tail hf)
    have hjumps' l (hl : .jump l ∈ ss) := hjumps l (.tail s hl)
    cases s with
    | label l => exact checked_append.mpr ⟨checked_label, hrest hparts hjumps'⟩
    | jump l =>
      exact checked_append.mpr ⟨checked_jump hf h.stands h.laid.start (hjumps l (.head ss)),
        hrest hparts hjumps'⟩
    | part c => exact checked_append.mpr ⟨hparts.1, hrest hparts.2 hjumps'⟩

end Strung

/-- A statement stands in a routine where `r` slots are reserved, and the source knows it and all
statements inside it. -/
structure Poses (S : TypedSetting) (f : Routine) (r : Nat) (o : Occurrence) : Prop where
  posed : ∃ code d', lowerStmt o.site o.stmt o.draft = .ok (code, d') ∧ Deferred o.site o.stmt ∧
    S.Posed f r o.site o.draft d' o.addr code
  known : ∀ ⦃o'⦄, Relation.ReflTransGen Part o o' → (S.header f).contains o'

theorem Poses.at (h : S.Poses f r o) (hrun : lowerStmt o.site o.stmt o.draft = .ok (code, d')) :
    S.Posed f r o.site o.draft d' o.addr code := by
  obtain ⟨c, d₁, hrun', -, hp⟩ := h.posed
  cases hrun.symm.trans hrun'
  exact hp

theorem Poses.occurs (h : S.Poses f r o) : S.Occurs f r o := by
  obtain ⟨c, d₁, hrun, hdef, hp⟩ := h.posed
  exact ⟨c, d₁, hrun, hdef, hp.seated⟩

/-- **The parts of a statement stand as the statement does.** -/
theorem Poses.part (hf : S.Disciplined f) {o' : Occurrence} (ho : S.Poses f r o)
    (hpart : Part o o') : S.Poses f r o' := by
  have hocc := ho.occurs.part hf.size_lt hpart
  obtain ⟨code, d', hrun, -, hp⟩ := ho.posed
  obtain ⟨c, rfl, hc⟩ := loweredStmt_of_lowerStmt hrun
  obtain ⟨pre, post, here, d₁, hin⟩ := hpart.inside hc
  have hlaid := laid_located.mp hp.seated.laid
  have hst := stands_located.mp hp.stands
  rw [hin.code] at hlaid hst
  obtain ⟨hparts, hopens⟩ := Strung.each hf ⟨hlaid, hst, hin.ordinary⟩
  obtain ⟨_, hg, -⟩ := defers_of_lowerStmt (.inl hin.nested) hin.lowered
  have hframe := hg.frame.trans (hin.frame.trans hp.seated.frame)
  refine ⟨⟨here, d₁, hin.lowered, .inl hin.nested, hocc.seated hin.lowered,
    hp.describes.follow hin.leads hframe hf.frame, fun l hl => ?_, hin.ret.trans hp.ret, ?_⟩,
    fun _ hrest => ho.known (.head hpart hrest)⟩
  · exact (hin.loop l hl).elim (hp.loop l) fun h => ⟨hopens h.1, hopens h.2⟩
  · rw [hin.addr]
    exact (Strand.each_append.mp hparts).2.1.1

/-! ## Conditions and declarations -/

/-- An expression of a statement: the expressions inside it leave values of their types, and so does
the expression itself if its value is needed or dropped only afterwards. -/
def Assured (S : TypedSetting) (f : Routine) (needed : Bool) (x : ExprOccurrence) : Prop :=
  (∀ y, ExprPart x y → S.Settled f y) ∧
    (needed = true ∨ hasEffect x.expr = false → S.Settled f x)

theorem Settled.assured {x : ExprOccurrence} (h : S.Settled f x) (needed : Bool) :
    S.Assured f needed x := ⟨fun _ => h.part, fun _ => h⟩

/-- The condition of a branch or a loop, with the jump that follows it. -/
theorem checked_test (hS : S.Faithful) (hf : S.Disciplined f) {limit : Nat} {test : Option Expr}
    {test' : Option Code} (hdesc : S.Describes f limit scope)
    (ht : LoweredTest fn scope s test test' s') (hgrown : s'.globals.Extends S.globals)
    (hlimit : limit ≤ r) (hst : S.Stands f r addr (testCode l test') ∧ f.At r r addr)
    (hl : S.Opens f [] l)
    (hlow : ∀ e, test = some e → (S.header f).lowers true ⟨fn, scope, s, e, addr⟩) :
    S.Checked f addr (testCode l test') ∧
      ∀ e, test = some e → S.Assured f true ⟨fn, scope, s, e, addr⟩ := by
  cases ht with
  | absent => exact ⟨checked_nil, by simp⟩
  | @present e c ty s' hrun =>
    rw [testCode_some] at hst ⊢
    obtain ⟨⟨t, hquiet, hslots, hstaged⟩, hat⟩ := hst
    rw [← temps_eq_nil hf hat hstaged] at hl
    obtain ⟨hyields, hsettled⟩ := types_of_lower hS hdesc fn e hrun
      ⟨hgrown, hlimit.trans hslots, hquiet, (staged_append.mp hstaged).1⟩ (hlow e rfl)
    refine ⟨checked_of_accepted hstaged (hyields.popTest hl).2, fun e' he => ?_⟩
    cases he
    exact hsettled.assured true

/-- Slots are reserved only where nothing but variables lies on the stack. -/
theorem accepted_slotCode {k : Nat} (h : SlotCode frame k c) (ht : t.temps = []) :
    S.Accepted f t addr c := by
  induction c generalizing k t addr with
  | nil => trivial
  | cons line c ih =>
    cases line with
    | label name => exact h.elim
    | instr i =>
      obtain ⟨⟨v, comment, hi, -⟩, hrest⟩ := h
      have hop : i.op = .push := congrArg Instr.op hi
      have hdest : i.dest = some (.imm v) := congrArg Instr.dest hi
      have hsrc : i.src = none := congrArg Instr.src hi
      have hres : i.reserves = true := congrArg Instr.reserves hi
      refine ⟨?_, ih hrest ?_⟩
      · rw [hop, hdest, hsrc, hres]
        exact .reserve ht
      · simp [after, hres, ht]

/-- The slot of the newest variable is a place of its type, once it is reserved. -/
theorem place_newSlot (hf : f.frame.Sound) {d : Draft}
    (hx : (d.frame.addLocal dr.name ty none).2.Extends f.frame) (hl : d.frame.next < t.slots) :
    S.Place f t ((newSlot d dr).operand none) ty := by
  have hentry := hx.entries (d.frame.get?_addLocal dr.name ty none)
  have hpos : (0 : Int) < d.frame.next := by
    rcases hf.placed hentry with ⟨-, -, hneg⟩ | ⟨hpos, -⟩
    · simp only at hneg
      omega
    · exact hpos
  refine Place.local hentry hpos Nat.zero_lt_one ?_
  simp only [FrameEntry.span, Option.getD_none]
  omega

/-- The first value of a variable whose slot is reserved. -/
theorem keeps_storeCode (hS : S.Faithful) {dest : Operand} {d : Draft} {initial : Initial}
    (hty : ty ≠ .void) (hinit : Initialized site ty dest d dr initial s)
    (hdesc : S.Describes f d.frame.next d.scope)
    (hp : S.Poised f d.frame.next s t addr (initial.storeCode ty dest))
    (hdest : ∀ {t' : Stage}, t.slots ≤ t'.slots → S.Place f t' dest ty)
    (hlow : ∀ init, dr.initializer = some init → isImmediate init = false →
      (S.header f).lowers true ⟨site.fn, d.scope, d.supply, init, addr⟩) :
    S.Keeps f t addr (initial.storeCode ty dest) ∧
      ∀ init, dr.initializer = some init → isImmediate init = false →
        S.Settled f ⟨site.fn, d.scope, d.supply, init, addr⟩ := by
  have hconst {v : Value} (hv : v.ty = ty) :
      S.Keeps f t addr (Code.ofInstrs [.mov dest (.imm v)]) := by
    have hplace := hdest le_rfl
    have hafter : S.after f t addr (.mov dest (.imm v)) = t := after_store hplace.ne_reg
    refine ⟨congrArg Stage.temps hafter, .store hplace (.imm v) ?_, trivial⟩
    rw [hv]
    exact assignable_self hty
  cases hinit with
  | default hnone =>
    refine ⟨hconst (Value.ty_defaultOf hty), fun init hinit _ => ?_⟩
    cases hnone.symm.trans hinit
  | constant hlit hw =>
    refine ⟨hconst (ty_of_coerce (convertConstant_eq_ok.mp hw).2), fun init hinit hnot => ?_⟩
    cases hlit.symm.trans hinit
    cases hnot
  | @computed init _ _ hsome _ hst =>
    obtain ⟨hkeeps, hsettled⟩ := keeps_of_stored hS hdesc hst hp hdest (hlow init hsome)
      (types_of_lower hS hdesc site.fn init)
    refine ⟨hkeeps, fun init' hsome' => ?_⟩
    cases hsome.symm.trans hsome'
    exact hsettled

/-- A declared variable. Below the top level its slot is reserved already, at the top level it is
the next one. -/
theorem sound_of_declared (hS : S.Faithful) (hf : S.Disciplined f) {d : Draft}
    (hty : decl.ty ≠ .void) (h : Declared site decl d dr code d')
    (hdesc : S.Describes f d.frame.next d.scope) (hgrown : d'.supply.globals.Extends S.globals)
    (hframe : d'.frame.Extends f.frame)
    (hroom : if site.nested then d'.frame.next ≤ r else r = d.frame.next)
    (hst : S.Stands f r addr code) (hat : f.At r r addr)
    (hlow : ∀ init, dr.initializer = some init → isImmediate init = false →
      (S.header f).lowers true
        ⟨site.fn, d.scope, d.supply, init, addr + if site.nested then 0 else 1⟩) :
    S.Checked f addr code ∧ ∀ init, dr.initializer = some init → isImmediate init = false →
      S.Settled f ⟨site.fn, d.scope, d.supply, init, addr + if site.nested then 0 else 1⟩ := by
  obtain ⟨t, hquiet, hslots, hstaged⟩ := hst
  have htemps := temps_eq_nil hf hat hstaged
  cases h with
  | @array n scope _ hn _ =>
    refine ⟨?_, fun init hinit => ?_⟩
    · split at hstaged
      next hnest =>
        rw [if_pos hnest]
        exact checked_nil
      next hnest =>
        rw [if_neg hnest]
        have hg : d.Grows (declared site d d.supply decl.ty dr (some n) scope _) _ :=
          grows_declared hty .refl (some n) scope
        exact checked_of_accepted hstaged (accepted_slotCode hg.slots htemps)
    · cases (arrayLength_eq_ok.mp hn).1.symm.trans hinit
  | @scalar initial s scope _ hinit _ =>
    rw [staged_located] at hstaged
    rw [checked_located]
    -- below the top level the slot is there already; at the top level `slotInstr` makes it
    cases hnest : site.nested with
    | true =>
      simp only [hnest, if_true, Nat.add_zero] at hroom hstaged hlow ⊢
      have hlt : d.frame.next < r := hroom
      obtain ⟨hkeeps, hsettled⟩ := keeps_storeCode hS hty hinit hdesc
        ⟨hgrown, hlt.le.trans hslots, hquiet, hstaged⟩
        (fun h => place_newSlot hf.frame hframe (by omega)) hlow
      exact ⟨checked_of_accepted hstaged hkeeps.2, hsettled⟩
    | false =>
      simp only [hnest, Bool.false_eq_true, if_false] at hroom hstaged hlow ⊢
      have hafter (v : Value) : S.after f t addr (slotInstr decl.ty dr.name v) =
          { t with slots := t.slots + 1 } := rfl
      cases hinit with
      | default hnone =>
        refine ⟨checked_of_accepted hstaged ⟨.reserve htemps, trivial⟩, fun init hinit => ?_⟩
        cases hnone.symm.trans hinit
      | constant hlit _ =>
        refine ⟨checked_of_accepted hstaged ⟨.reserve htemps, trivial⟩, fun init hinit hnot => ?_⟩
        cases hlit.symm.trans hinit
        cases hnot
      | @computed init store _ hsome _ hst =>
        have hstore := (staged_append.mp hstaged).2
        obtain ⟨hkeeps, hsettled⟩ := keeps_of_stored (t := { t with slots := t.slots + 1 }) hS hdesc
          hst ⟨hgrown, by simp only; omega, hquiet, hstore⟩
          (fun h => place_newSlot hf.frame hframe (by simp only at h; omega)) (hlow init hsome)
          (types_of_lower hS hdesc site.fn init)
        refine ⟨checked_of_accepted hstaged ?_, fun init' hsome' => ?_⟩
        · exact accepted_append.mpr ⟨⟨.reserve htemps, trivial⟩, hkeeps.2⟩
        · cases hsome.symm.trans hsome'
          exact hsettled

/-- An initializer of one of several variables that needs code of its own. -/
def Initializes (site : Site) (decl : Declaration) (drs : List Declarator) (d : Draft) (addr : Nat)
    (x : ExprOccurrence) : Prop :=
  ∃ pre dr post before d₁ init, drs = pre ++ dr :: post ∧
    declareLocals site decl pre d = .ok (before, d₁) ∧ dr.initializer = some init ∧
    isImmediate init = false ∧ x = ⟨site.fn, d₁.scope, d₁.supply, init,
      addr + before.size + if site.nested then 0 else 1⟩

theorem initializes_cons {rest : List Declarator} {d : Draft} {x : ExprOccurrence}
    (hhere : declareLocals site decl [dr] d = .ok (here, d₁)) :
    Initializes site decl (dr :: rest) d addr x ↔
      (∃ init, dr.initializer = some init ∧ isImmediate init = false ∧
        x = ⟨site.fn, d.scope, d.supply, init, addr + if site.nested then 0 else 1⟩) ∨
      Initializes site decl rest d₁ (addr + here.size) x := by
  constructor
  · rintro ⟨pre, dr', post, before, d₂, init, hsplit, hpre, hinit, himm, rfl⟩
    rcases pre with _ | ⟨first, pre⟩
    · obtain ⟨rfl, rfl⟩ := List.cons.inj hsplit
      cases hpre
      exact .inl ⟨init, hinit, himm, rfl⟩
    · obtain ⟨rfl, rfl⟩ := List.cons.inj hsplit
      obtain ⟨here', d₃, before', hhere', hpre', rfl⟩ := declareLocals_cons_iff.mp hpre
      cases hhere.symm.trans hhere'
      refine .inr ⟨pre, dr', post, before', d₂, init, rfl, hpre', hinit, himm, ?_⟩
      rw [Code.size_append, ← Nat.add_assoc]
  · rintro (⟨init, hinit, himm, rfl⟩ | ⟨pre, dr', post, before, d₂, init, rfl, hpre, hinit, himm, rfl⟩)
    · exact ⟨[], dr, rest, [], d, init, rfl, rfl, hinit, himm, rfl⟩
    · refine ⟨dr :: pre, dr', post, here ++ before, d₂, init, rfl, ?_, hinit, himm, ?_⟩
      · exact declareLocals_cons_iff.mpr ⟨here, d₁, before, hhere, hpre, rfl⟩
      · rw [Code.size_append, ← Nat.add_assoc]

/-- Declared variables, one after the other. -/
theorem sound_of_declareLocals (hS : S.Faithful) (hf : S.Disciplined f) {d : Draft}
    (hty : decl.ty ≠ .void) (hrun : declareLocals site decl drs d = .ok (code, d'))
    (hdesc : S.Describes f d.frame.next d.scope) (hgrown : d'.supply.globals.Extends S.globals)
    (hframe : d'.frame.Extends f.frame)
    (hroom : if site.nested then d'.frame.next ≤ r else r = d.frame.next)
    (hlaid : Laid S.program f r r addr code) (hst : S.Stands f r addr code)
    (hlow : ∀ x, Initializes site decl drs d addr x → (S.header f).lowers true x) :
    S.Checked f addr code ∧ ∀ x, Initializes site decl drs d addr x → S.Settled f x := by
  induction drs generalizing d code addr r with
  | nil =>
    cases hrun
    refine ⟨checked_nil, fun x hx => ?_⟩
    obtain ⟨pre, dr, post, -, -, -, hsplit, -⟩ := hx
    simp at hsplit
  | cons dr rest ih =>
    obtain ⟨here, d₁, after, hhere, hafter, rfl⟩ := declareLocals_cons_iff.mp hrun
    obtain ⟨here', d₂, nothing, hd, hnothing, hcode⟩ := declareLocals_cons_eq_ok hhere
    cases hnothing
    rw [List.append_nil] at hcode
    subst hcode
    simp only [initializes_cons hhere] at hlow ⊢
    obtain ⟨slots, hg, -, hcounts⟩ := grows_of_declared hty hd
    obtain ⟨_, hg', -⟩ := grows_of_declareLocals hty hafter
    have hsz := hlaid.size_lt.trans hf.size_lt
    rw [Code.size_append] at hsz
    obtain ⟨hrise, hres⟩ := hcounts (by omega)
    have hnext := hg.next
    have hmono := hg'.frame.next
    -- the room that is left for the first variable, and for the others behind it
    have hroom' : (if site.nested then d₁.frame.next ≤ r else r = d.frame.next) ∧
        if site.nested then d'.frame.next ≤ r + here.reservations
          else r + here.reservations = d₁.frame.next := by
      cases hnest : site.nested with
      | true =>
        simp only [hnest, if_true] at hroom ⊢
        omega
      | false =>
        simp only [hnest, Bool.false_eq_true, if_false] at hroom hres ⊢
        omega
    obtain ⟨hchecked, hsettled⟩ := sound_of_declared hS hf hty hd hdesc
      (hg'.supply.extends.trans hgrown) (hg'.frame.trans hframe) hroom'.1 hst.append_left
      hlaid.start fun init hinit himm => hlow _ (.inl ⟨init, hinit, himm, rfl⟩)
    have hlaid' := (laid_append.mp hlaid).2
    rw [hrise, ← Nat.cast_add] at hlaid'
    obtain ⟨hchecked', hsettled'⟩ := ih hafter
      (hdesc.follow (leads_of_declared hd) (hg'.frame.trans hframe) hf.frame) hroom'.2
      hlaid' (hst.append_right (calm_of_declared hty hd)) fun x hx => hlow x (.inr hx)
    refine ⟨checked_append.mpr ⟨hchecked, hchecked'⟩, ?_⟩
    rintro x (⟨init, hinit, himm, rfl⟩ | hx)
    · exact hsettled init hinit himm
    · exact hsettled' x hx

/-! ## Effects and results -/

section Forms

variable {d₀ d₁ : Draft} {e : Expr}

/-- An expression that is evaluated for its effect. -/
theorem checked_of_lowerEffect (hS : S.Faithful) {limit : Nat} {scope : Scope}
    (hdesc : S.Describes f limit scope) (hrun : lowerEffect fn scope e s = .ok (code, s'))
    (hgrown : s'.globals.Extends S.globals) (hlimit : limit ≤ r) (hst : S.Stands f r addr code)
    (hlow : (S.header f).lowers false ⟨fn, scope, s, e, addr⟩) :
    S.Checked f addr code ∧ S.Assured f false ⟨fn, scope, s, e, addr⟩ := by
  obtain ⟨t, hquiet, hslots, hstaged⟩ := hst
  obtain ⟨hkeeps, hparts, hsettled⟩ := keeps_of_lowerEffect hS hdesc hrun
    ⟨hgrown, hlimit.trans hslots, hquiet, hstaged⟩ hlow
  refine ⟨checked_of_accepted hstaged hkeeps.2, hparts, ?_⟩
  rintro (h | h)
  · cases h
  · exact hsettled h

/-- The last part of a loop with a header. -/
theorem checked_update (hS : S.Faithful) {limit : Nat} {scope : Scope} {update : Option Expr}
    (hdesc : S.Describes f limit scope) (hu : LoweredUpdate fn scope s update code s')
    (hgrown : s'.globals.Extends S.globals) (hlimit : limit ≤ r) (hst : S.Stands f r addr code)
    (hlow : ∀ e, update = some e → (S.header f).lowers false ⟨fn, scope, s, e, addr⟩) :
    S.Checked f addr code ∧
      ∀ e, update = some e → S.Assured f false ⟨fn, scope, s, e, addr⟩ := by
  cases hu with
  | absent => exact ⟨checked_nil, by simp⟩
  | @present e c s' hrun =>
    obtain ⟨hchecked, hassured⟩ := checked_of_lowerEffect hS hdesc hrun hgrown hlimit
      (stands_located.mp hst) (hlow e rfl)
    refine ⟨checked_located.mpr hchecked, fun e' he => ?_⟩
    cases he
    exact hassured

/-- The last instruction of a return statement. -/
theorem returns_of_staged {loc loc' : Location} {t : Stage}
    (ho : (S.header f).contains ⟨site, d₀, .ret (some e) loc, addr⟩)
    (hrun : lowerStmt site (.ret (some e) loc) d₀ =
      .ok (Code.located loc' (code ++ Code.ofInstrs [.pop rv, .ret]), d₁))
    (hs : S.Staged f t addr (code ++ Code.ofInstrs [.pop rv, .ret])) :
    S.Returns f (addr + code.size + 1) := by
  obtain ⟨-, -, hpop, -⟩ := staged_append.mp hs
  obtain ⟨j, hj, hop, hdest, -⟩ := exists_of_placed hpop
  refine ⟨_, e, loc, _, _, _, j, ho, rfl, hrun, ?_, rfl, hj, hop, hdest⟩
  rw [Code.size_located, Code.size_append]
  rfl

/-- A value that is returned is left in `RV`. -/
theorem checked_return (hS : S.Faithful) {loc loc' : Location}
    (ho : (S.header f).contains ⟨site, d₀, .ret (some e) loc, addr⟩)
    (hrun : lowerStmt site (.ret (some e) loc) d₀ =
      .ok (Code.located loc' (code ++ Code.ofInstrs [.pop rv, .ret]), d₁))
    (hv : Valued site.ret (lower site.fn d₀.scope e) d₀.supply e code s)
    (hp : S.Posed f r site d₀ (d₀.withSupply s) addr (code ++ Code.ofInstrs [.pop rv, .ret]))
    (hlow : (∀ v loc, e ≠ .literal v loc) →
      (S.header f).lowers true ⟨site.fn, d₀.scope, d₀.supply, e, addr⟩) :
    S.Checked f addr (code ++ Code.ofInstrs [.pop rv, .ret]) ∧
      ((∀ v loc, e ≠ .literal v loc) → S.Settled f ⟨site.fn, d₀.scope, d₀.supply, e, addr⟩) := by
  obtain ⟨t, hquiet, hslots, hstaged⟩ := hp.stands
  obtain ⟨hyields, hsettled⟩ := yields_of_valued hS hv
    ⟨hp.seated.grown, hp.seated.next_le.trans hslots, hquiet, (staged_append.mp hstaged).1⟩
    (types_of_lower hS hp.describes site.fn e) hlow
  obtain ⟨hkeeps, hreg⟩ := hyields.pop .rv
  refine ⟨checked_of_accepted hstaged ?_, hsettled⟩
  have hcode : code ++ Code.ofInstrs [.pop rv, .ret] =
      (code ++ Code.ofInstrs [.pop (.reg .rv)]) ++ Code.ofInstrs [.ret] := by
    simp [rv]
  rw [hcode, accepted_append]
  have hreturns := returns_of_staged ho hrun hstaged
  refine ⟨hkeeps.2, .ret (.inr (.inl ⟨?_, ?_⟩)), trivial⟩
  · rw [hreg, hp.ret]
  · rwa [Code.size_append]

end Forms

/-! ## All statements -/

theorem checked_of_lowerStmts {body : List Stmt} {d : Draft}
    (hrun : lowerStmts site body d = .ok (code, d'))
    (h : ∀ pre stmt post before d₁ here d₂, body = pre ++ stmt :: post →
      lowerStmts site pre d = .ok (before, d₁) → lowerStmt site stmt d₁ = .ok (here, d₂) →
      S.Checked f (addr + before.size) here) : S.Checked f addr code := by
  induction body generalizing d addr code with
  | nil =>
    obtain ⟨rfl, -⟩ := lowerStmts_nil_eq_ok.mp hrun
    exact checked_nil
  | cons stmt rest ih =>
    obtain ⟨here, d₁, after, hhere, hafter, rfl⟩ := lowerStmts_cons_eq_ok.mp hrun
    refine checked_append.mpr ⟨?_, ih hafter fun pre stmt' post before d₂ here' d₃ hsplit hpre => ?_⟩
    · exact h [] stmt rest [] d here d₁ rfl (lowerStmts_nil_eq_ok.mpr ⟨rfl, rfl⟩) hhere
    · have hpre' := lowerStmts_cons_eq_ok.mpr ⟨here, d₁, before, hhere, hpre, rfl⟩
      have hlater := h (stmt :: pre) stmt' post _ d₂ here' d₃ (by rw [hsplit]; rfl) hpre'
      rwa [Code.size_append, ← Nat.add_assoc] at hlater

/-- The code of a statement is checked, and its own expressions are assured. -/
def Vouched (S : TypedSetting) (f : Routine) (o : Occurrence) : Prop :=
  (∀ ⦃code d'⦄, lowerStmt o.site o.stmt o.draft = .ok (code, d') → S.Checked f o.addr code) ∧
    ∀ ⦃needed x⦄, StmtExpr o needed x → S.Assured f needed x

@[simp]
theorem posed_located {d : Draft} :
    S.Posed f r site d d' addr (Code.located loc c) ↔ S.Posed f r site d d' addr c := by
  constructor
  · rintro ⟨⟨hgrown, hframe, hnext, hfits, hlands, hlaid⟩, hdesc, hloop, hret, hst⟩
    exact ⟨⟨hgrown, hframe, hnext, hfits, hlands, laid_located.mp hlaid⟩, hdesc, hloop, hret,
      stands_located.mp hst⟩
  · rintro ⟨⟨hgrown, hframe, hnext, hfits, hlands, hlaid⟩, hdesc, hloop, hret, hst⟩
    exact ⟨⟨hgrown, hframe, hnext, hfits, hlands, laid_located.mpr hlaid⟩, hdesc, hloop, hret,
      stands_located.mpr hst⟩

/-- A statement is vouched for if its parts are. -/
theorem vouched_of_parts (hS : S.Faithful) (hf : S.Disciplined f) (ho : S.Poses f r o)
    (hparts : ∀ o', Part o o' → S.Vouched f o') : S.Vouched f o := by
  obtain ⟨site, d, stmt, addr⟩ := o
  obtain ⟨code, d', hrun, hdef, hp⟩ := ho.posed
  have hlow {needed : Bool} {x : ExprOccurrence} (hx : StmtExpr ⟨site, d, stmt, addr⟩ needed x) :
      (S.header f).lowers needed x := hS.stmt (ho.known .refl) hx
  -- lowering is a function, so it is enough to look at this one run of it
  suffices h : S.Checked f addr code ∧
      ∀ ⦃needed x⦄, StmtExpr ⟨site, d, stmt, addr⟩ needed x → S.Assured f needed x by
    refine ⟨fun code' d'' hrun' => ?_, h.2⟩
    cases hrun.symm.trans hrun'
    exact h.1
  obtain ⟨c, rfl, hc⟩ := loweredStmt_of_lowerStmt hrun
  rw [posed_located] at hp
  rw [checked_located]
  simp only at hp hc
  cases hc with
  | declare hty hd =>
    have hnest : site.nested = true := hdef.resolve_right fun h => h _ rfl
    obtain ⟨hchecked, hsettled⟩ := sound_of_declareLocals hS hf hty hd hp.describes
      hp.seated.grown hp.seated.frame (by rw [if_pos hnest]; exact hp.seated.next_le)
      hp.seated.laid hp.stands (by
        rintro x ⟨pre, dr, post, before, d₁, init, hsplit, hpre, hinit, himm, rfl⟩
        exact hlow (.initializer hsplit hpre hinit himm))
    refine ⟨hchecked, fun needed x hx => ?_⟩
    cases hx with
    | initializer hsplit hpre hinit himm =>
      exact (hsettled _ ⟨_, _, _, _, _, _, hsplit, hpre, hinit, himm, rfl⟩).assured true
  | block hb =>
    refine ⟨checked_of_lowerStmts hb fun pre stmt post before d₁ here d₂ hsplit hpre hhere => ?_,
      fun needed x hx => by cases hx⟩
    subst hsplit
    exact (hparts _ (.block hpre)).1 hhere
  | branch ht hthen =>
    obtain ⟨_, hg, -⟩ := defers_of_lowerStmt (.inl rfl) hthen
    rw [branchCode_eq] at hp ⊢
    -- the tests between the labels are checked here, the statements as parts
    have hstrung : S.Strung f r addr _ := ⟨hp.seated.laid, hp.stands, .test (.present ht),
      .stmt rfl (.present hthen), trivial⟩
    obtain ⟨⟨htest, -⟩, hopens⟩ := hstrung.each hf
    obtain ⟨hchecked, hassured⟩ := checked_test hS hf hp.describes (.present ht)
      ((hg.supply.trans (.labels 1 .refl)).extends.trans hp.seated.grown)
      (hg.frame.next.trans hp.seated.next_le) htest (hopens (by simp))
      (by rintro e ⟨⟩; exact hlow .branchTest)
    refine ⟨hstrung.checked hf (by simp) ⟨hchecked, ?_, trivial⟩, fun needed x hx => ?_⟩
    · simpa [Nat.add_assoc] using (hparts _ (.consequent ht)).1 hthen
    · cases hx
      exact hassured _ rfl
  | branchElse ht hthen helse =>
    obtain ⟨_, hg, -⟩ := defers_of_lowerStmt (.inl rfl) hthen
    obtain ⟨_, hg', -⟩ := defers_of_lowerStmt (.inl rfl) helse
    have hdraws := (hg.supply.trans (.labels 1 .refl)).trans (hg'.supply.trans (.labels 1 .refl))
    rw [branchElseCode_eq] at hp ⊢
    have hstrung : S.Strung f r addr _ := ⟨hp.seated.laid, hp.stands, .test (.present ht),
      .stmt rfl (.present hthen), .stmt rfl (.present helse), trivial⟩
    obtain ⟨⟨htest, -⟩, hopens⟩ := hstrung.each hf
    obtain ⟨hchecked, hassured⟩ := checked_test hS hf hp.describes (.present ht)
      (hdraws.extends.trans hp.seated.grown)
      ((hg.frame.next.trans hg'.frame.next).trans hp.seated.next_le) htest (hopens (by simp))
      (by rintro e ⟨⟩; exact hlow .branchTest)
    refine ⟨hstrung.checked hf (by simp) ⟨hchecked, ?_, ?_, trivial⟩, fun needed x hx => ?_⟩
    · simpa [Nat.add_assoc] using (hparts _ (.consequent ht)).1 hthen
    · convert (hparts _ (.alternate ht hthen)).1 helse using 1
      simp
      omega
    · cases hx
      exact hassured _ rfl
  | whileLoop ht hb =>
    obtain ⟨_, hg, -⟩ := defers_of_lowerStmt (.inl rfl) hb
    rw [whileCode_eq] at hp ⊢
    have hstrung : S.Strung f r addr _ := ⟨hp.seated.laid, hp.stands, .test (.present ht),
      .stmt rfl (.present hb), trivial⟩
    obtain ⟨⟨htest, -⟩, hopens⟩ := hstrung.each hf
    obtain ⟨hchecked, hassured⟩ := checked_test hS hf hp.describes (.present ht)
      (hg.supply.extends.trans hp.seated.grown) (hg.frame.next.trans hp.seated.next_le) htest
      (hopens (by simp)) (by rintro e ⟨⟩; exact hlow .whileTest)
    refine ⟨hstrung.checked hf (by simp) ⟨hchecked, ?_, trivial⟩, fun needed x hx => ?_⟩
    · simpa [Nat.add_assoc] using (hparts _ (.whileBody ht)).1 hb
    · cases hx
      exact hassured _ rfl
  | doLoop hb ht =>
    obtain ⟨_, hg, -⟩ := defers_of_lowerStmt (.inl rfl) hb
    rw [doCode_eq] at hp ⊢
    have hstrung : S.Strung f r addr _ := ⟨hp.seated.laid, hp.stands, .stmt rfl (.present hb),
      .test (.present ht), trivial⟩
    obtain ⟨⟨-, htest, -⟩, hopens⟩ := hstrung.each hf
    obtain ⟨hchecked, hassured⟩ := checked_test hS hf (hp.describes.mono hg.frame.next)
      (.present ht) hp.seated.grown hp.seated.next_le htest (hopens (by simp))
      (by rintro e ⟨⟩; exact hlow (.doTest hb))
    refine ⟨hstrung.checked hf (by simp) ⟨(hparts _ .doBody).1 hb, hchecked, trivial⟩,
      fun needed x hx => ?_⟩
    cases hx with
    | doTest hb' =>
      cases hb.symm.trans hb'
      exact hassured _ rfl
  | @forLoop init test update body loc initCode bodyCode updateCode condition s s' d₁ d₂ hi ht hb hu =>
    obtain ⟨_, hg, -⟩ := defers_of_lowerStmt (.inl rfl) hb
    -- test, body and update see the variables that the first clause declares
    have hdesc : S.Describes f d₁.frame.next d₁.scope :=
      ((ho.part hf (.forBody hi ht)).at hb).describes
    have hlimit : d₁.frame.next ≤ r := hg.frame.next.trans hp.seated.next_le
    rw [forCode_eq] at hp ⊢
    have hstrung : S.Strung f r addr _ := ⟨hp.seated.laid, hp.stands, .stmt rfl hi, .test ht,
      .stmt rfl (.present hb), .update hu, trivial⟩
    obtain ⟨⟨-, htest, -, ⟨hupdate, -⟩, -⟩, hopens⟩ := hstrung.each hf
    obtain ⟨hchecked, hassured⟩ := checked_test hS hf hdesc ht
      ((hg.supply.trans hu.draws).extends.trans hp.seated.grown) hlimit htest (hopens (by simp))
      (by rintro e rfl; exact hlow (.forTest hi))
    obtain ⟨hchecked', hassured'⟩ := checked_update hS hdesc hu hp.seated.grown hlimit hupdate
      (by rintro e rfl; exact hlow (.forUpdate hi ht hb))
    refine ⟨hstrung.checked hf (by simp) ⟨?_, hchecked, (hparts _ (.forBody hi ht)).1 hb, hchecked',
      trivial⟩, fun needed x hx => ?_⟩
    · cases hi with
      | absent => exact checked_nil
      | present hi => exact (hparts _ .forInit).1 hi
    · cases hx with
      | forTest hi' =>
        obtain ⟨rfl, rfl⟩ := hi.unique hi'
        exact hassured _ rfl
      | forUpdate hi' ht' hb' =>
        obtain ⟨rfl, rfl⟩ := hi.unique hi'
        obtain ⟨rfl, rfl⟩ := ht.unique ht'
        cases hb.symm.trans hb'
        exact hassured' _ rfl
  | ret hvoid =>
    obtain ⟨t, -, -, hstaged⟩ := hp.stands
    refine ⟨checked_of_accepted hstaged ⟨.ret (.inl ?_), trivial⟩, fun needed x hx => by cases hx⟩
    rw [← hp.ret, hvoid]
  | retValue _ hv =>
    obtain ⟨hchecked, hsettled⟩ := checked_return hS (ho.known .refl) hrun hv hp
      fun hlit => hlow (.result hlit)
    refine ⟨hchecked, fun needed x hx => ?_⟩
    cases hx with
    | result hlit => exact (hsettled hlit).assured true
  | brk hl =>
    have hjump := checked_jump hf hp.stands hp.seated.laid.start (hp.loop _ hl).2
    exact ⟨hjump, fun needed x hx => by cases hx⟩
  | cont hl =>
    have hjump := checked_jump hf hp.stands hp.seated.laid.start (hp.loop _ hl).1
    exact ⟨hjump, fun needed x hx => by cases hx⟩
  | expr he =>
    obtain ⟨hchecked, hassured⟩ := checked_of_lowerEffect hS hp.describes he hp.seated.grown
      hp.seated.next_le hp.stands (hlow .effect)
    refine ⟨hchecked, fun needed x hx => ?_⟩
    cases hx
    exact hassured

/-- **A statement is checked and its expressions are assured.** -/
theorem vouched_of_poses (hS : S.Faithful) (hf : S.Disciplined f) {o : Occurrence}
    (ho : S.Poses f r o) : S.Vouched f o :=
  vouched_of_parts hS hf ho fun _ hpart => vouched_of_poses hS hf (ho.part hf hpart)
termination_by sizeOf o.stmt
decreasing_by exact hpart.encloses.sizeOf_lt

end Stepwise.TypedSetting
