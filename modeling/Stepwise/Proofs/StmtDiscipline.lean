import Mathlib
import Stepwise.Proofs.ExprDiscipline
import Stepwise.Proofs.Strands

/-!
# The discipline of statements

The code of a statement leaves the stack as high as it found it, but for the slots that a
declaration at the top level of a function body reserves in place. All other slots are reserved in
front of the body statement, in the order in which the variables get them.

## Main definitions

* `SlotCode`: code that reserves slots from a given one on
* `Draft.Grows`: what lowering a statement adds to a function under construction
* `Inside`: the code of a part of a statement between the strands of the whole
* `Seated`: the code of a statement at its address, with all that its lowering relies on

## Main results

* `defers_of_lowerStmt`: what a statement adds
* `admitted_of_lowerStmt`: every instruction of a statement keeps the discipline
-/

namespace Stepwise.Lowering

open Snippet

/-! ## Code that reserves slots -/

/-- Code that reserves the slots from `k` on, one by one, each with a value of the type of its
variable. -/
def SlotCode (frame : FrameLayout) : Nat → Code → Prop
  | _, [] => True
  | _, .label _ :: _ => False
  | k, .instr i :: rest =>
    (∃ v comment, i.bare = ((Instr.push (.imm v)).withComment comment).bare ∧ frame.Owns k v.ty) ∧
      SlotCode frame (k + 1) rest

variable {c code : Code} {frame : FrameLayout} {k : Nat} {ty : Ty} {dr : Declarator} {d d' : Draft}
  {dest : Operand} {initial : Initial} {s s' : Supply} {site : Site} {decl : Declaration}
  {fn : String} {scope : Scope} {test : Option Expr}

theorem slotCode_append {d : Code} :
    SlotCode frame k (c ++ d) ↔ SlotCode frame k c ∧ SlotCode frame (k + c.size) d := by
  induction c generalizing k with
  | nil => simp [SlotCode]
  | cons line c ih =>
    cases line with
    | label name => simp [SlotCode]
    | instr i =>
      simp only [List.cons_append, SlotCode, ih, Code.size_cons_instr, and_assoc]
      rw [Nat.add_comm (Code.size c) 1, ← Nat.add_assoc]

theorem SlotCode.extend {frame' : FrameLayout} (h : SlotCode frame k c)
    (hx : frame.Extends frame') : SlotCode frame' k c := by
  induction c generalizing k with
  | nil => trivial
  | cons line c ih =>
    cases line with
    | label name => exact h
    | instr i =>
      obtain ⟨⟨v, comment, hi, ho⟩, hrest⟩ := h
      exact ⟨⟨v, comment, hi, ho.extend hx⟩, ih hrest⟩

/-- The instruction that reserves a slot. -/
theorem slotCode_slotInstr {name : String} {v : Value} (h : frame.Owns k v.ty) :
    SlotCode frame k (Code.ofInstrs [slotInstr ty name v]) :=
  ⟨⟨v, _, rfl, h⟩, trivial⟩

theorem slotCode_arraySlots {n : Nat} (h : ∀ j < n, frame.Owns (k + j) (Value.defaultOf ty).ty) :
    SlotCode frame k (arraySlots ty dr n) ∧ (arraySlots ty dr n).size = n := by
  induction n with
  | zero => exact ⟨trivial, rfl⟩
  | succ n ih =>
    obtain ⟨hc, hs⟩ := ih fun j hj => h j (by omega)
    have hsplit : arraySlots ty dr (n + 1) = arraySlots ty dr n ++
        Code.ofInstrs [((Instr.push (.imm (.defaultOf ty))).withComment
          (slotComment ty dr.name ++ "[" ++ toString n ++ "]")).withOrigin dr.loc] := by
      rw [arraySlots, List.range_succ, List.map_append, Code.ofInstrs_append]
      rfl
    rw [hsplit]
    refine ⟨slotCode_append.mpr ⟨hc, ⟨_, _, rfl, ?_⟩, trivial⟩, ?_⟩
    · rw [hs]
      exact h n (Nat.lt_succ_self n)
    · rw [Code.size_append, hs]
      rfl

/-- Code that reserves slots adds one to both counts with each instruction. -/
theorem SlotCode.counts (h : SlotCode frame k c) : c.rise = c.size ∧ c.reservations = c.size := by
  induction c generalizing k with
  | nil => exact ⟨rfl, rfl⟩
  | cons line c ih =>
    cases line with
    | label name => exact h.elim
    | instr i =>
      obtain ⟨⟨v, comment, hi, -⟩, hrest⟩ := h
      obtain ⟨hrise, hres⟩ := ih hrest
      have hi₁ : i.rise = 1 := congrArg Instr.rise hi
      have hi₂ : i.reserves = true := congrArg Instr.reserves hi
      simp only [Code.rise_cons_instr, Code.reservations_cons_instr, Code.size_cons_instr, hrise,
        hres, hi₁, hi₂, Bool.toNat_true]
      omega

theorem SlotCode.admitted {S : Setting} {f : Routine} {addr : Nat} (h : SlotCode f.frame k c) :
    S.Admitted f k k addr c := by
  induction c generalizing k addr with
  | nil => trivial
  | cons line c ih =>
    cases line with
    | label name => exact h.elim
    | instr i =>
      obtain ⟨⟨v, comment, hi, ho⟩, hrest⟩ := h
      have hi₁ : i.rise = 1 := congrArg Instr.rise hi
      have hi₂ : i.reserves = true := congrArg Instr.reserves hi
      have hadm : S.Admits f k k addr i ↔ S.Admits f k k addr i.bare := Iff.rfl
      rw [Setting.admitted_cons_instr, hi₁, hi₂, hadm, hi]
      refine ⟨⟨trivial, fun _ => ⟨rfl, v, rfl, ho⟩⟩, ?_⟩
      exact_mod_cast ih hrest

/-! ## What lowering adds to a draft -/

/-- A draft has grown by variables with these slots. -/
structure Draft.Grows (d d' : Draft) (slots : Code) : Prop where
  supply : Draws d.supply d'.supply
  frame : d.frame.Extends d'.frame
  sound : d.frame.Sound → d'.frame.Sound
  next : d'.frame.next = d.frame.next + slots.size
  /-- The slots start with default values. -/
  defaults : ∀ i ∈ slots.instrs, ∀ v, i.dest = some (.imm v) → v = .defaultOf v.ty
  slots : SlotCode d'.frame d.frame.next slots
  below : d'.frame.entries.belowLink = d.frame.entries.belowLink

theorem Draft.Grows.trans {d'' : Draft} {a b : Code} (h : d.Grows d' a) (h' : d'.Grows d'' b) :
    d.Grows d'' (a ++ b) where
  supply := h.supply.trans h'.supply
  frame := h.frame.trans h'.frame
  sound := h'.sound ∘ h.sound
  next := by rw [h'.next, h.next, Code.size_append, Nat.add_assoc]
  defaults := by
    intro i hi
    rw [Code.instrs_append, List.mem_append] at hi
    exact hi.elim (h.defaults i) (h'.defaults i)
  slots := slotCode_append.mpr ⟨h.slots.extend h'.frame, h.next ▸ h'.slots⟩
  below := h'.below.trans h.below

/-- Growth with more drawn from the supply before and after. -/
theorem Draft.Grows.around {d₁ d₂ : Draft} {slots : Code} (h : d₁.Grows d₂ slots)
    (hs : Draws d.supply d₁.supply) (hf : d₁.frame = d.frame) (hs' : Draws d₂.supply d'.supply)
    (hf' : d'.frame = d₂.frame) : d.Grows d' slots where
  supply := (hs.trans h.supply).trans hs'
  frame := by rw [← hf, hf']; exact h.frame
  sound := by rw [← hf, hf']; exact h.sound
  next := by rw [← hf, hf']; exact h.next
  defaults := h.defaults
  slots := by rw [← hf, hf']; exact h.slots
  below := by rw [← hf, hf']; exact h.below

/-- Lowering that only draws from the supply. -/
theorem Draft.Grows.draw (hs : Draws d.supply d'.supply) (hf : d'.frame = d.frame) :
    d.Grows d' [] where
  supply := hs
  frame := hf ▸ .refl _
  sound := by rw [hf]; exact id
  next := by rw [hf]; rfl
  defaults := by simp [Code.instrs]
  slots := trivial
  below := by rw [hf]

theorem Initialized.draws (h : Initialized site ty dest d dr initial s) : Draws d.supply s := by
  cases h with
  | default => exact .refl
  | constant => exact .refl
  | computed _ _ hst => exact hst.draws (draws_of_lower _ _ _)

theorem Initialized.leaves (h : Initialized site ty dest d dr initial s)
    (hsize : (initial.storeCode ty dest).size < 2 ^ 63) : (initial.storeCode ty dest).Leaves 0 := by
  cases h with
  | default => simp [Initial.storeCode, Code.Leaves]
  | constant => simp [Initial.storeCode, Code.Leaves]
  | computed _ _ hst => exact hst.leaves hsize

/-- A variable whose slot is reserved in place. -/
theorem Initialized.counts (h : Initialized site ty dest d dr initial s) {name : String}
    (hsize : (initial.slotCode ty name).size < 2 ^ 63) :
    (initial.slotCode ty name).rise = 1 ∧ (initial.slotCode ty name).reservations = 1 := by
  cases h with
  | default => exact ⟨rfl, rfl⟩
  | constant => exact ⟨rfl, rfl⟩
  | @computed init store _ _ _ hst =>
    simp only [Initial.slotCode, Code.size_append] at hsize
    obtain ⟨hrise, hres⟩ := hst.leaves (by omega)
    have hslot (v : Value) : (slotInstr ty name v).rise = 1 ∧ (slotInstr ty name v).reserves = true :=
      ⟨rfl, rfl⟩
    simp [Initial.slotCode, hrise, hres, hslot]

/-- The slots of the newest variable are its own. -/
theorem owns_addLocal (frame : FrameLayout) (name : String) (ty : Ty) (length : Option Nat) {j : Nat}
    (hj : j < length.getD 1) : (frame.addLocal name ty length).2.Owns (frame.next + j) ty := by
  refine ⟨_, _, frame.get?_addLocal name ty length, ⟨?_, ?_⟩, rfl⟩
  · push_cast
    omega
  · simp only [FrameEntry.span]
    push_cast
    omega

/-- The slots that a declared variable needs. -/
def declaredSlots (decl : Declaration) (dr : Declarator) : Option Nat → Code
  | some n => arraySlots decl.ty dr n
  | none => Code.ofInstrs [(slotInstr decl.ty dr.name (.defaultOf decl.ty)).withOrigin dr.loc]

theorem defaults_declaredSlots {length : Option Nat} (hty : decl.ty ≠ .void) {i : Instr}
    (hi : i ∈ (declaredSlots decl dr length).instrs) {v : Value} (hv : i.dest = some (.imm v)) :
    v = .defaultOf v.ty := by
  have hdest : i.dest = some (.imm (.defaultOf decl.ty)) := by
    cases length with
    | none =>
      cases List.mem_singleton.mp hi
      rfl
    | some n =>
      simp only [declaredSlots, arraySlots, Code.instrs_ofInstrs, List.mem_map] at hi
      obtain ⟨k, -, rfl⟩ := hi
      rfl
  cases hdest.symm.trans hv
  rw [Value.ty_defaultOf hty]

theorem grows_declared (hty : decl.ty ≠ .void) (hs : Draws d.supply s) (length : Option Nat)
    (scope : Scope) :
    d.Grows (declared site d s decl.ty dr length scope (declaredSlots decl dr length))
      (declaredSlots decl dr length) := by
  have hdefault : (Value.defaultOf decl.ty).ty = decl.ty := Value.ty_defaultOf hty
  have hslots : SlotCode (d.frame.addLocal dr.name decl.ty length).2 d.frame.next
      (declaredSlots decl dr length) ∧ (declaredSlots decl dr length).size = length.getD 1 := by
    cases length with
    | none =>
      refine ⟨⟨⟨_, _, rfl, ?_⟩, trivial⟩, rfl⟩
      rw [hdefault]
      exact owns_addLocal d.frame dr.name decl.ty none Nat.zero_lt_one
    | some n =>
      refine slotCode_arraySlots fun j hj => ?_
      rw [hdefault]
      exact owns_addLocal d.frame dr.name decl.ty (some n) hj
  exact ⟨hs, d.frame.extends_addLocal _ _ _, fun h => h.addLocal _ _ _, by rw [hslots.2]; rfl,
    fun _ hi _ => defaults_declaredSlots hty hi, hslots.1, d.frame.belowLink_addLocal _ _ _⟩

/-- A declared variable is added to the frame. Below the top level its slots are left to be
reserved, at the top level its code reserves them. -/
theorem grows_of_declared (hty : decl.ty ≠ .void) (h : Declared site decl d dr code d') :
    ∃ slots, d.Grows d' slots ∧
      d'.reserved = (if site.nested then d.reserved ++ slots else d.reserved) ∧
      (code.size < 2 ^ 63 → code.rise = code.reservations ∧
        code.reservations = if site.nested then 0 else slots.size) := by
  cases h with
  | @array n scope _ _ _ =>
    have hg : d.Grows (declared site d d.supply decl.ty dr (some n) scope _) _ :=
      grows_declared hty .refl (some n) scope
    refine ⟨_, hg, rfl, fun _ => ?_⟩
    obtain ⟨hrise, hres⟩ := hg.slots.counts
    cases site.nested with
    | true => exact ⟨rfl, rfl⟩
    | false => exact ⟨hrise.trans (by rw [← hres]; rfl), hres⟩
  | @scalar initial s scope _ hinit _ =>
    refine ⟨declaredSlots decl dr none, grows_declared hty hinit.draws none scope, rfl,
      fun hsize => ?_⟩
    rw [Code.size_located] at hsize
    rw [Code.rise_located, Code.reservations_located]
    -- nested code stores into a slot that is reserved elsewhere; top-level code makes the slot
    cases hn : site.nested with
    | true =>
      rw [hn, if_pos rfl] at hsize
      obtain ⟨hrise, hres⟩ := hinit.leaves hsize
      simp [hrise, hres]
    | false =>
      rw [hn, if_neg Bool.false_ne_true] at hsize
      obtain ⟨hrise, hres⟩ := hinit.counts hsize
      simp [hrise, hres, declaredSlots]

theorem grows_of_declareLocals {drs : List Declarator} (hty : decl.ty ≠ .void)
    (h : declareLocals site decl drs d = .ok (code, d')) :
    ∃ slots, d.Grows d' slots ∧
      d'.reserved = (if site.nested then d.reserved ++ slots else d.reserved) ∧
      (code.size < 2 ^ 63 → code.rise = code.reservations ∧
        code.reservations = if site.nested then 0 else slots.size) := by
  induction drs generalizing d code with
  | nil =>
    cases h
    exact ⟨[], .draw .refl rfl, by simp, by simp⟩
  | cons dr rest ih =>
    obtain ⟨here, d₁, after, hd, hr, rfl⟩ := declareLocals_cons_eq_ok h
    obtain ⟨a, ha, hares, hacounts⟩ := grows_of_declared hty hd
    obtain ⟨b, hb, hbres, hbcounts⟩ := ih hr
    refine ⟨a ++ b, ha.trans hb, ?_, fun hsize => ?_⟩
    · rw [hbres, hares]
      cases site.nested <;> simp
    · rw [Code.size_append] at hsize
      obtain ⟨h₁, h₂⟩ := hacounts (by omega)
      obtain ⟨h₃, h₄⟩ := hbcounts (by omega)
      simp only [Code.rise_append, Code.reservations_append, Code.size_append]
      refine ⟨by omega, ?_⟩
      rw [h₂, h₄]
      cases site.nested <;> simp

/-- The slots of the variables in a statement are left to be reserved in front of it. -/
def Deferred (site : Site) (stmt : Stmt) : Prop := site.nested = true ∨ ∀ decl, stmt ≠ .declare decl

theorem exists_declare_of_not_deferred {site : Site} {stmt : Stmt} (h : ¬ Deferred site stmt) :
    ∃ decl, stmt = .declare decl := by
  by_contra hne
  exact h (.inr fun decl he => hne ⟨decl, he⟩)

/-- Lowering has added variables whose slots are left to be reserved, and code that leaves the stack
as it was. -/
def Defers (d d' : Draft) (code : Code) : Prop :=
  ∃ slots, d.Grows d' slots ∧ d'.reserved = d.reserved ++ slots ∧
    (code.size < 2 ^ 63 → code.Leaves 0)

theorem defers_of_lowerStmts {body : List Stmt}
    (ih : ∀ s ∈ body, ∀ {d d' code}, lowerStmt site s d = .ok (code, d') → Defers d d' code)
    (h : lowerStmts site body d = .ok (code, d')) : Defers d d' code := by
  induction body generalizing d code with
  | nil =>
    obtain ⟨rfl, rfl⟩ := lowerStmts_nil_eq_ok.mp h
    exact ⟨[], .draw .refl rfl, by simp, by simp [Code.Leaves]⟩
  | cons stmt rest ihl =>
    obtain ⟨here, d₁, after, hhere, hafter, rfl⟩ := lowerStmts_cons_eq_ok.mp h
    obtain ⟨a, ha, hares, haleaves⟩ := ih stmt List.mem_cons_self hhere
    obtain ⟨b, hb, hbres, hbleaves⟩ := ihl (fun s hs => ih s (List.mem_cons_of_mem _ hs)) hafter
    exact ⟨a ++ b, ha.trans hb, by rw [hbres, hares, List.append_assoc],
      Code.Settles.then haleaves hbleaves⟩

theorem defers_of_loweredInit {init : Option Stmt}
    (ih : ∀ s ∈ init, ∀ {d d' code}, lowerStmt site s d = .ok (code, d') → Defers d d' code)
    (h : LoweredInit site d init code d') : Defers d d' code := by
  cases h with
  | absent => exact ⟨[], .draw .refl rfl, by simp, by simp [Code.Leaves]⟩
  | present hi => exact ih _ rfl hi

/-- Lowering has one outcome. -/
theorem LoweredInit.unique {init : Option Stmt} {d₁ d₂ : Draft} {c₁ c₂ : Code}
    (h₁ : LoweredInit site d init c₁ d₁) (h₂ : LoweredInit site d init c₂ d₂) :
    c₁ = c₂ ∧ d₁ = d₂ := by
  cases h₁ with
  | absent =>
    cases h₂
    exact ⟨rfl, rfl⟩
  | present h₁ =>
    cases h₂ with
    | present h₂ =>
      cases h₁.symm.trans h₂
      exact ⟨rfl, rfl⟩

@[inherit_doc LoweredInit.unique]
theorem LoweredTest.unique {s₁ s₂ : Supply} {c₁ c₂ : Option Code}
    (h₁ : LoweredTest fn scope s test c₁ s₁) (h₂ : LoweredTest fn scope s test c₂ s₂) :
    c₁ = c₂ ∧ s₁ = s₂ := by
  cases h₁ with
  | absent =>
    cases h₂
    exact ⟨rfl, rfl⟩
  | present h₁ =>
    cases h₂ with
    | present h₂ =>
      cases h₁.symm.trans h₂
      exact ⟨rfl, rfl⟩

theorem LoweredTest.draws {code : Option Code} (h : LoweredTest fn scope s test code s') :
    Draws s s' := by
  cases h with
  | absent => exact .refl
  | present hl => exact draws_of_lower _ _ _ hl

theorem LoweredUpdate.draws {update : Option Expr} (h : LoweredUpdate fn scope s update code s') :
    Draws s s' := by
  cases h with
  | absent => exact .refl
  | present hl => exact draws_of_lowerEffect _ _ _ hl

theorem LoweredUpdate.settles {update : Option Expr}
    (h : LoweredUpdate fn scope s update code s') : code.Settles 0 := by
  cases h with
  | absent => exact fun _ => ⟨rfl, rfl⟩
  | present hl => exact Code.settles_located.mpr (leaves_of_lowerEffect hl)

theorem LoweredTest.settles {code : Option Code} (h : LoweredTest fn scope s test code s')
    (exit : String) : (testCode exit code).Settles 0 := by
  cases h with
  | absent => exact fun _ => ⟨rfl, rfl⟩
  | present hl =>
    intro hsize
    rw [size_testCode] at hsize
    obtain ⟨hrise, hres⟩ := leaves_of_lower _ _ _ hl (by omega)
    simp [testCode, conditionCode, jumpIfZero, Code.Leaves, hrise, hres]

theorem settles_jump (l : String) : Code.Settles [jump l] 0 := fun _ => ⟨rfl, rfl⟩

/-- Code in strands leaves the stack as it was if the parts do. -/
theorem settles_codes {ss : List Strand} (h : Strand.Each (fun _ c => c.Settles 0) 0 ss) :
    (Strand.codes ss).Settles 0 :=
  Strand.codes_of_each (fun _ => ⟨rfl, rfl⟩) .then (fun _ _ => ⟨rfl, rfl⟩) settles_jump h

/-- **What a statement adds**: variables whose slots are left to be reserved, and code that leaves
the stack as it was. -/
theorem defers_of_lowerStmt {stmt : Stmt} (hdef : Deferred site stmt)
    (h : lowerStmt site stmt d = .ok (code, d')) : Defers d d' code := by
  revert hdef
  refine lowerStmt_induct (fun {site d stmt c d'} _ hc ih hdef => ?_) h
  cases hc with
  | declare hty hd =>
    have hnest : site.nested = true := hdef.resolve_right (fun h => h _ rfl)
    obtain ⟨slots, hg, hres, hcounts⟩ := grows_of_declareLocals hty hd
    rw [hnest] at hres hcounts
    refine ⟨slots, hg, hres, fun hsize => ?_⟩
    rw [Code.size_located] at hsize
    obtain ⟨h₁, h₂⟩ := hcounts hsize
    rw [if_pos rfl] at h₂
    simp [Code.Leaves, h₁, h₂]
  | block hb =>
    obtain ⟨slots, hg, hres, hleaves⟩ :=
      defers_of_lowerStmts (fun s hs _ _ _ hr => ih (.inBlock hs) hr (.inl rfl)) hb
    exact ⟨slots, hg.around .refl rfl .refl rfl, hres, by simpa using hleaves⟩
  | branch ht hc =>
    obtain ⟨slots, hg, hres, hleaves⟩ := ih .consequent hc (.inl rfl)
    refine ⟨slots, hg.around (draws_of_lower _ _ _ ht) rfl (.labels 1 .refl) rfl, hres,
      Code.settles_located.mpr ?_⟩
    rw [branchCode_eq]
    exact settles_codes ⟨LoweredTest.settles (.present ht) _, hleaves, trivial⟩
  | @branchElse _ _ _ _ _ _ _ _ _ d₁ d₂ ht hc ha =>
    obtain ⟨a, hg, hres, hleaves⟩ := ih .consequent hc (.inl rfl)
    obtain ⟨b, hg', hres', hleaves'⟩ := ih (.alternate rfl) ha (.inl rfl)
    -- the slots of both branches are reserved, one after the other, although only one is taken
    have hthen : d.Grows ((d₁.backIn d).withLabels 1) a :=
      hg.around (draws_of_lower _ _ _ ht) rfl (.labels 1 .refl) rfl
    have helse : ((d₁.backIn d).withLabels 1).Grows ((d₂.backIn d).withLabels 1) b :=
      hg'.around .refl rfl (.labels 1 .refl) rfl
    refine ⟨a ++ b, hthen.trans helse, ?_, Code.settles_located.mpr ?_⟩
    · rw [← List.append_assoc]
      exact hres'.trans (congrArg (· ++ b) hres)
    · rw [branchElseCode_eq]
      exact settles_codes ⟨LoweredTest.settles (.present ht) _, hleaves, hleaves', trivial⟩
  | whileLoop ht hb =>
    obtain ⟨slots, hg, hres, hleaves⟩ := ih .whileBody hb (.inl rfl)
    have hs := (Draws.refl.labels 2).trans (draws_of_lower _ _ _ ht)
    refine ⟨slots, hg.around hs rfl .refl rfl, hres, Code.settles_located.mpr ?_⟩
    rw [whileCode_eq]
    exact settles_codes ⟨LoweredTest.settles (.present ht) _, hleaves, trivial⟩
  | doLoop hb ht =>
    obtain ⟨slots, hg, hres, hleaves⟩ := ih .doBody hb (.inl rfl)
    refine ⟨slots, hg.around (.labels 3 .refl) rfl (draws_of_lower _ _ _ ht) rfl, hres,
      Code.settles_located.mpr ?_⟩
    rw [doCode_eq]
    exact settles_codes ⟨hleaves, LoweredTest.settles (.present ht) _, trivial⟩
  | @forLoop _ _ _ _ _ initCode bodyCode updateCode test' s s' d₁ d₂ hi ht hb hu =>
    obtain ⟨a, hg, hres, hleaves⟩ :=
      defers_of_loweredInit (fun s hs _ _ _ hr => ih (.forInit hs) hr (.inl rfl)) hi
    obtain ⟨b, hg', hres', hleaves'⟩ := ih .forBody hb (.inl rfl)
    -- the variables of the first clause come before those of the body
    have hfirst : d.Grows d₁ a := hg.around .refl rfl .refl rfl
    have hbody : d₁.Grows ((d₂.backIn d).withSupply s') b :=
      hg'.around ((Draws.refl.labels 3).trans ht.draws) rfl hu.draws rfl
    refine ⟨a ++ b, hfirst.trans hbody, ?_, Code.settles_located.mpr ?_⟩
    · rw [← List.append_assoc]
      exact hres'.trans (congrArg (· ++ b) hres)
    · rw [forCode_eq]
      exact settles_codes ⟨hleaves, ht.settles _, hleaves', hu.settles, trivial⟩
  | ret => exact ⟨[], .draw .refl rfl, by simp, by simp [Code.Leaves]⟩
  | retValue _ hv =>
    refine ⟨[], .draw (hv.draws (draws_of_lower _ _ _)) rfl, by simp [Draft.withSupply],
      fun hsize => ?_⟩
    rw [Code.size_located, Code.size_append] at hsize
    obtain ⟨h₁, h₂⟩ := hv.leaves (by omega)
    simp [Code.Leaves, h₁, h₂]
  | brk _ | cont _ =>
    exact ⟨[], .draw .refl rfl, by simp, by simp [Code.Leaves, jump]⟩
  | expr he =>
    exact ⟨[], .draw (draws_of_lowerEffect _ _ _ he) rfl, by simp [Draft.withSupply],
      Code.settles_located.mpr (leaves_of_lowerEffect he)⟩

/-! ## Statements inside statements -/

/-- A statement on its way through lowering: where it stands, the draft before it, and the address
of its code. -/
structure Occurrence where
  site : Site
  draft : Draft
  stmt : Stmt
  addr : Nat

/-- The statements that a statement directly consists of, each with the address of its code. -/
inductive Part : Occurrence → Occurrence → Prop
  | block {site : Site} {d d₁ : Draft} {pre post : List Stmt} {stmt : Stmt} {loc : Location}
    {code : Code} {addr : Nat} : lowerStmts site.inner pre d.inside = .ok (code, d₁) →
    Part ⟨site, d, .block (pre ++ stmt :: post) loc, addr⟩
      ⟨site.inner, d₁, stmt, addr + code.size⟩
  | consequent {site : Site} {d : Draft} {test : Expr} {consequent : Stmt} {alternate : Option Stmt}
    {loc : Location} {testCode : Code} {ty : Ty} {s : Supply} {addr : Nat} :
    lower site.fn d.scope test d.supply = .ok ((testCode, ty), s) →
    Part ⟨site, d, .branch test consequent alternate loc, addr⟩
      ⟨site.inner, (d.withSupply s).inside, consequent, addr + testCode.size + 2⟩
  | alternate {site : Site} {d d₁ : Draft} {test : Expr} {consequent alternate : Stmt}
    {loc : Location} {testCode thenCode : Code} {ty : Ty} {s : Supply} {addr : Nat} :
    lower site.fn d.scope test d.supply = .ok ((testCode, ty), s) →
    lowerStmt site.inner consequent (d.withSupply s).inside = .ok (thenCode, d₁) →
    Part ⟨site, d, .branch test consequent (some alternate) loc, addr⟩
      ⟨site.inner, ((d₁.backIn d).withLabels 1).inside, alternate,
        addr + (testCode.size + (thenCode.size + 3))⟩
  | whileBody {site : Site} {d : Draft} {test : Expr} {body : Stmt} {loc : Location}
    {testCode : Code} {ty : Ty} {s : Supply} {addr : Nat} :
    lower site.fn d.scope test (d.supply.withLabels 2) = .ok ((testCode, ty), s) →
    Part ⟨site, d, .whileLoop test body loc, addr⟩
      ⟨site.inLoop (labelName site.fn "while" d.supply.labels)
        (labelName site.fn "endwhile" (d.supply.labels + 1)), (d.withSupply s).inside, body,
        addr + testCode.size + 2⟩
  | doBody {site : Site} {d : Draft} {body : Stmt} {test : Expr} {loc : Location} {addr : Nat} :
    Part ⟨site, d, .doLoop body test loc, addr⟩
      ⟨site.inLoop (labelName site.fn "test" (d.supply.labels + 1))
        (labelName site.fn "enddo" (d.supply.labels + 2)), (d.withLabels 3).inside, body, addr⟩
  | forInit {site : Site} {d : Draft} {init : Stmt} {test update : Option Expr} {body : Stmt}
    {loc : Location} {addr : Nat} :
    Part ⟨site, d, .forLoop (some init) test update body loc, addr⟩
      ⟨site.inner, d.inside, init, addr⟩
  | forBody {site : Site} {d d₁ : Draft} {init : Option Stmt} {test update : Option Expr}
    {body : Stmt} {loc : Location} {initCode : Code} {test' : Option Code} {s : Supply}
    {addr : Nat} : LoweredInit site.inner d.inside init initCode d₁ →
    LoweredTest site.fn d₁.scope (d₁.supply.withLabels 3) test test' s →
    Part ⟨site, d, .forLoop init test update body loc, addr⟩
      ⟨site.inLoop (labelName site.fn "next" (d₁.supply.labels + 1))
        (labelName site.fn "endfor" (d₁.supply.labels + 2)), (d₁.withSupply s).inside, body,
        addr + initCode.size +
          (testCode (labelName site.fn "endfor" (d₁.supply.labels + 2)) test').size⟩

theorem Part.encloses {o o' : Occurrence} (h : Part o o') : Encloses o.stmt o'.stmt := by
  cases h with
  | block => exact .inBlock (by simp)
  | consequent => exact .consequent
  | alternate => exact .alternate rfl
  | whileBody => exact .whileBody
  | doBody => exact .doBody
  | forInit => exact .forInit rfl
  | forBody => exact .forBody

/-! ## Names after a statement -/

variable {stmt : Stmt} {drs : List Declarator} {body : List Stmt} {symbol : Symbol}

/-- A local variable with slots in a frame. -/
def Fresh (frame : FrameLayout) : Symbol → Prop
  | .variable ⟨ty, _, _, _, .frame key⟩ =>
    ∃ (e : FrameEntry) (n : Nat), frame.entries.get? key = some e ∧ e.ty = ty ∧ e.offset = n ∧
      0 < e.span ∧ n + e.span ≤ frame.next
  | _ => False

theorem Fresh.extend {frame' : FrameLayout} (h : Fresh frame symbol) (hx : frame.Extends frame') :
    Fresh frame' symbol := by
  rcases symbol with ⟨ty, isArray, length, value, offset | key⟩ | sig
  · exact h
  · obtain ⟨e, n, he, hty, hn, hspan, hle⟩ := h
    exact ⟨e, n, hx.entries he, hty, hn, hspan, hle.trans hx.next⟩
  · exact h

/-- From one draft to a later one: the names in scope are those of the first, and variables declared
since. -/
structure Draft.Leads (d d' : Draft) : Prop where
  frame : d.frame.Extends d'.frame
  names : ∀ ⦃name symbol⦄, d'.scope.lookup? name = some symbol →
    d.scope.lookup? name = some symbol ∨ Fresh d'.frame symbol

theorem Draft.Leads.same (hf : d.frame.Extends d'.frame)
    (hs : ∀ name, d'.scope.lookup? name = d.scope.lookup? name) : d.Leads d' :=
  ⟨hf, fun name _ h => .inl ((hs name).symm.trans h)⟩

theorem Draft.leads_inside (d : Draft) : d.Leads d.inside := .same (.refl _) fun _ => rfl

theorem Draft.Leads.trans {d'' : Draft} (h : d.Leads d') (h' : d'.Leads d'') : d.Leads d'' := by
  refine ⟨h.frame.trans h'.frame, fun name symbol hs => ?_⟩
  rcases h'.names hs with hmid | hfresh
  · exact (h.names hmid).imp_right (·.extend h'.frame)
  · exact .inr hfresh

/-- A declaration brings one variable into scope. -/
theorem leads_of_declared (h : Declared site decl d dr code d') : d.Leads d' := by
  have hnew {isArray : Bool} {length : Option Nat} {scope : Scope}
      (hd : d.scope.declare dr.name (.variable ⟨decl.ty, isArray, length, none, newSlot d dr⟩) =
        .ok scope) (hlen : 0 < length.getD 1) ⦃name symbol⦄
      (hs : scope.lookup? name = some symbol) : d.scope.lookup? name = some symbol ∨
        Fresh (d.frame.addLocal dr.name decl.ty length).2 symbol := by
    rw [Scope.lookup?_of_declare hd] at hs
    split at hs
    · cases hs
      exact .inr ⟨_, d.frame.next, d.frame.get?_addLocal dr.name decl.ty length, rfl, rfl, hlen,
        le_rfl⟩
    · exact .inl hs
  cases h with
  | array _ hn hd => exact ⟨d.frame.extends_addLocal _ _ _, hnew hd (arrayLength_pos hn)⟩
  | scalar _ _ hd => exact ⟨d.frame.extends_addLocal _ _ _, hnew hd Nat.zero_lt_one⟩

theorem leads_of_declareLocals (h : declareLocals site decl drs d = .ok (code, d')) :
    d.Leads d' := by
  induction drs generalizing d code with
  | nil =>
    cases h
    exact .same (.refl _) fun _ => rfl
  | cons dr rest ih =>
    obtain ⟨here, d₁, after, hd, hr, rfl⟩ := declareLocals_cons_eq_ok h
    exact (leads_of_declared hd).trans (ih hr)

/-- Only a declaration changes the scope that a statement leaves. -/
theorem scope_of_loweredStmt (h : LoweredStmt site d stmt code d')
    (hne : ∀ decl, stmt ≠ .declare decl) : d'.scope = d.scope := by
  cases h with
  | declare => exact absurd rfl (hne _)
  | _ => rfl

theorem leads_of_lowerStmt (h : lowerStmt site stmt d = .ok (code, d')) : d.Leads d' := by
  obtain ⟨c, rfl, hc⟩ := loweredStmt_of_lowerStmt h
  by_cases hdecl : ∃ decl, stmt = .declare decl
  · obtain ⟨decl, rfl⟩ := hdecl
    cases hc with
    | declare _ hd => exact leads_of_declareLocals hd
  · have hne : ∀ decl, stmt ≠ .declare decl := fun decl he => hdecl ⟨decl, he⟩
    obtain ⟨_, hg, -⟩ := defers_of_lowerStmt (.inr hne) h
    exact .same hg.frame fun name => by rw [scope_of_loweredStmt hc hne]

theorem leads_of_lowerStmts (h : lowerStmts site body d = .ok (code, d')) : d.Leads d' := by
  induction body generalizing d code with
  | nil =>
    obtain ⟨-, rfl⟩ := lowerStmts_nil_eq_ok.mp h
    exact .same (.refl _) fun _ => rfl
  | cons stmt rest ih =>
    obtain ⟨here, d₁, after, hhere, hafter, rfl⟩ := lowerStmts_cons_eq_ok.mp h
    exact (leads_of_lowerStmt hhere).trans (ih hafter)

theorem leads_of_loweredInit {init : Option Stmt} (h : LoweredInit site d init code d') :
    d.Leads d' := by
  cases h with
  | absent => exact .same (.refl _) fun _ => rfl
  | present hi => exact leads_of_lowerStmt hi

/-! ## The code around a part -/

/-- The code between the labels and jumps of a statement. -/
inductive Ordinary : Code → Prop
  | test {fn exit : String} {scope : Scope} {s s' : Supply} {test : Option Expr}
    {code : Option Code} : LoweredTest fn scope s test code s' → Ordinary (testCode exit code)
  | update {fn : String} {scope : Scope} {s s' : Supply} {update : Option Expr} {code : Code} :
    LoweredUpdate fn scope s update code s' → Ordinary code
  | stmt {site : Site} {d d' : Draft} {stmt : Option Stmt} {code : Code} : site.nested = true →
    LoweredInit site d stmt code d' → Ordinary code
  | stmts {site : Site} {d d' : Draft} {body : List Stmt} {code : Code} : site.nested = true →
    lowerStmts site body d = .ok (code, d') → Ordinary code

theorem defers_of_nested (hnest : site.nested = true)
    (h : lowerStmts site body d = .ok (code, d')) : Defers d d' code :=
  defers_of_lowerStmts (fun _ _ => defers_of_lowerStmt (.inl hnest)) h

theorem Ordinary.settles (h : Ordinary c) : c.Settles 0 := by
  cases h with
  | test ht => exact ht.settles _
  | update hu => exact hu.settles
  | stmt hnest hi =>
    obtain ⟨-, -, -, hleaves⟩ :=
      defers_of_loweredInit (fun _ _ => defers_of_lowerStmt (.inl hnest)) hi
    exact hleaves
  | stmts hnest hb =>
    obtain ⟨-, -, -, hleaves⟩ := defers_of_nested hnest hb
    exact hleaves

/-- A part of a statement with the code `c`: its code stands between strands of the whole, its scope
goes on from that of the whole, and so do the drafts after both. -/
structure Inside (o o' : Occurrence) (c : Code) (d' : Draft) (pre post : List Strand) (here : Code)
    (d₁ : Draft) : Prop where
  code : c = Strand.codes (pre ++ .part here :: post)
  ordinary : Strand.Each (fun _ => Ordinary) o.addr (pre ++ .part here :: post)
  addr : o'.addr = o.addr + (Strand.codes pre).size
  lowered : lowerStmt o'.site o'.stmt o'.draft = .ok (here, d₁)
  nested : o'.site.nested = true
  ret : o'.site.ret = o.site.ret
  /-- A part that is the body of a loop has the labels of the loop around it. -/
  loop : ∀ l, o'.site.loop = some l → o.site.loop = some l ∨
    .label l.next ∈ pre ++ .part here :: post ∧ .label l.exit ∈ pre ++ .part here :: post
  leads : o.draft.Leads o'.draft
  supply : Draws d₁.supply d'.supply
  frame : d₁.frame.Extends d'.frame

theorem Part.inside {o o' : Occurrence} (hpart : Part o o')
    (hc : LoweredStmt o.site o.draft o.stmt c d') :
    ∃ pre post here d₁, Inside o o' c d' pre post here d₁ := by
  -- each case splits the strands of the statement around the one that the part stands for
  cases hpart with
  | block hpre =>
    cases hc with
    | block hb =>
      obtain ⟨_, hrest, rfl⟩ := lowerStmts_append_eq_ok hpre hb
      obtain ⟨here, d₂, after, hhere, hafter, rfl⟩ := lowerStmts_cons_eq_ok.mp hrest
      obtain ⟨_, hg, -⟩ := defers_of_nested rfl hafter
      exact ⟨[.part _], [.part after], here, d₂, by simp [Strand.codes, Strand.code],
        ⟨.stmts rfl hpre, .stmt rfl (.present hhere), .stmts rfl hafter, trivial⟩, by simp, hhere,
        rfl, rfl, fun _ => .inl, (Draft.leads_inside _).trans (leads_of_lowerStmts hpre),
        hg.supply, hg.frame⟩
  | consequent ht =>
    cases hc with
    | branch ht' hthen =>
      cases ht.symm.trans ht'
      exact ⟨[.part _], _, _, _, branchCode_eq _ _ _,
        ⟨.test (.present ht), .stmt rfl (.present hthen), trivial⟩, by simp [Nat.add_assoc], hthen,
        rfl, rfl, fun _ => .inl, .same (.refl _) fun _ => rfl, .labels 1 .refl, .refl _⟩
    | branchElse ht' hthen helse =>
      cases ht.symm.trans ht'
      obtain ⟨_, hg, -⟩ := defers_of_lowerStmt (.inl rfl) helse
      exact ⟨[.part _], _, _, _, branchElseCode_eq _ _ _ _ _, ⟨.test (.present ht),
        .stmt rfl (.present hthen), .stmt rfl (.present helse), trivial⟩, by simp [Nat.add_assoc],
        hthen, rfl, rfl, fun _ => .inl, .same (.refl _) fun _ => rfl,
        (Draws.refl.labels 1).trans (hg.supply.trans (.labels 1 .refl)), hg.frame⟩
  | alternate ht hthen =>
    cases hc with
    | branchElse ht' hthen' helse =>
      cases ht.symm.trans ht'
      cases hthen.symm.trans hthen'
      obtain ⟨_, hg, -⟩ := defers_of_lowerStmt (.inl rfl) hthen
      exact ⟨[.part _, .part _, .jump _, .label _], _, _, _, branchElseCode_eq _ _ _ _ _,
        ⟨.test (.present ht), .stmt rfl (.present hthen), .stmt rfl (.present helse), trivial⟩,
        by simp; omega, helse, rfl, rfl, fun _ => .inl, .same hg.frame fun _ => rfl,
        .labels 1 .refl, .refl _⟩
  | whileBody ht =>
    cases hc with
    | whileLoop ht' hb =>
      cases ht.symm.trans ht'
      exact ⟨[.label _, .part _], _, _, _, whileCode_eq _ _ _ _,
        ⟨.test (.present ht), .stmt rfl (.present hb), trivial⟩, by simp [Nat.add_assoc], hb, rfl,
        rfl, by rintro l ⟨⟩; simp, .same (.refl _) fun _ => rfl, .refl, .refl _⟩
  | doBody =>
    cases hc with
    | doLoop hb ht =>
      exact ⟨[.label _], _, _, _, doCode_eq _ _ _ _ _,
        ⟨.stmt rfl (.present hb), .test (.present ht), trivial⟩, by simp, hb, rfl, rfl,
        by rintro l ⟨⟩; simp, .same (.refl _) fun _ => rfl, draws_of_lower _ _ _ ht, .refl _⟩
  | forInit =>
    cases hc with
    | forLoop hi ht hb hu =>
      cases hi with
      | present hi =>
        obtain ⟨_, hg, -⟩ := defers_of_lowerStmt (.inl rfl) hb
        exact ⟨[], _, _, _, forCode_eq _ _ _ _ _ _ _, ⟨.stmt rfl (.present hi), .test ht,
          .stmt rfl (.present hb), .update hu, trivial⟩, by simp, hi, rfl, rfl, fun _ => .inl,
          .same (.refl _) fun _ => rfl,
          ((Draws.refl.labels 3).trans ht.draws).trans (hg.supply.trans hu.draws), hg.frame⟩
  | forBody hi ht =>
    cases hc with
    | forLoop hi' ht' hb hu =>
      obtain ⟨rfl, rfl⟩ := hi.unique hi'
      obtain ⟨rfl, rfl⟩ := ht.unique ht'
      exact ⟨[.part _, .label _, .part _], _, _, _, forCode_eq _ _ _ _ _ _ _,
        ⟨.stmt rfl hi, .test ht, .stmt rfl (.present hb), .update hu, trivial⟩,
        by simp [Nat.add_assoc], hb, rfl, rfl, by rintro l ⟨⟩; simp,
        ((Draft.leads_inside _).trans (leads_of_loweredInit hi)).trans (.same (.refl _) fun _ => rfl),
        hu.draws, .refl _⟩

end Stepwise.Lowering

namespace Stepwise.Setting

open Snippet Lowering

variable {S : Setting} {f : Routine} {d d' d₁ : Draft} {dr : Declarator} {ty : Ty}
  {code after here : Code} {decl : Declaration} {site : Site} {drs : List Declarator} {stmt : Stmt}
  {addr r : Nat} {o : Occurrence} {body rest : List Stmt} {names : Table Symbol} {ss : List Strand}

/-- New variables are in the frame. -/
theorem Fits.follow (hs : S.Fits f d.frame.next d.scope) (hl : d.Leads d')
    (hx : d'.frame.Extends f.frame) : S.Fits f d'.frame.next d'.scope := by
  intro name symbol hsym
  rcases hl.names hsym with hold | hfresh
  · exact (hs hold).mono hl.frame.next
  · rcases symbol with ⟨ty, isArray, length, value, offset | key⟩ | sig
    · exact hfresh.elim
    · obtain ⟨e, n, he, -, hn, hspan, hle⟩ := hfresh
      exact ⟨e, hx.entries he, by omega, by omega⟩
    · exact hfresh.elim

/-! ## Statements at their addresses -/

/-- The code of a statement, or of several, stands at an address where all slots of its variables
are reserved; `d` and `d'` are the drafts before and after it. -/
structure Seated (S : Setting) (f : Routine) (r : Nat) (site : Site) (d d' : Draft) (addr : Nat)
    (code : Code) : Prop where
  grown : d'.supply.globals.Extends S.globals
  frame : d'.frame.Extends f.frame
  next_le : d'.frame.next ≤ r
  fits : S.Fits f d.frame.next d.scope
  loop : ∀ l, site.loop = some l → S.Lands f r r l.next ∧ S.Lands f r r l.exit
  laid : Laid S.program f r r addr code

/-- The first of several statements. -/
theorem Seated.head (hs : S.Seated f r site d d' addr (here ++ after))
    (hafter : Defers d₁ d' after) : S.Seated f r site d d₁ addr here := by
  obtain ⟨slots, hg, -⟩ := hafter
  exact ⟨hg.supply.extends.trans hs.grown, hg.frame.trans hs.frame, hg.frame.next.trans hs.next_le,
    hs.fits, hs.loop, (laid_append.mp hs.laid).1⟩

/-- The statements after the first. -/
theorem Seated.tail (hsize : f.code.size < 2 ^ 63)
    (hs : S.Seated f r site d d' addr (here ++ after))
    (hrun : lowerStmt site stmt d = .ok (here, d₁)) (hdef : Deferred site stmt)
    (hafter : Defers d₁ d' after) : S.Seated f r site d₁ d' (addr + here.size) after := by
  obtain ⟨_, -, -, hleaves⟩ := defers_of_lowerStmt hdef hrun
  obtain ⟨_, hg, -⟩ := hafter
  exact ⟨hs.grown, hs.frame, hs.next_le,
    hs.fits.follow (leads_of_lowerStmt hrun) (hg.frame.trans hs.frame), hs.loop,
    (Laid.seq hsize hleaves hs.laid).2⟩

/-- A statement occurs in a routine where `r` slots are reserved: it was lowered there, and its code
is seated. -/
def Occurs (S : Setting) (f : Routine) (r : Nat) (o : Occurrence) : Prop :=
  ∃ code d', lowerStmt o.site o.stmt o.draft = .ok (code, d') ∧ Deferred o.site o.stmt ∧
    S.Seated f r o.site o.draft d' o.addr code

theorem Occurs.seated (h : S.Occurs f r o)
    (hrun : lowerStmt o.site o.stmt o.draft = .ok (code, d')) :
    S.Seated f r o.site o.draft d' o.addr code := by
  obtain ⟨c, d₁, hrun', -, hs⟩ := h
  cases hrun.symm.trans hrun'
  exact hs

theorem Occurs.deferred (h : S.Occurs f r o) : Deferred o.site o.stmt := by
  obtain ⟨-, -, -, hdef, -⟩ := h
  exact hdef

/-- The parts of code in strands are laid one after the other, and each label can be jumped to. -/
theorem each_laid (hsize : f.code.size < 2 ^ 63)
    (hlaid : Laid S.program f r r addr (Strand.codes ss))
    (ho : Strand.Each (fun _ => Ordinary) addr ss) :
    Strand.Each (Laid S.program f r r) addr ss ∧ ∀ l, .label l ∈ ss → S.Lands f r r l := by
  induction ss generalizing addr with
  | nil => exact ⟨trivial, by simp⟩
  | cons s ss ih =>
    cases s with
    | label l =>
      obtain ⟨hparts, hlands⟩ := ih hlaid.2 ho
      refine ⟨hparts, fun l' hl => ?_⟩
      rcases List.mem_cons.mp hl with he | hl
      · cases he
        exact lands_of_laid hlaid
      · exact hlands l' hl
    | jump l =>
      obtain ⟨hparts, hlands⟩ := ih (Laid.seq hsize (settles_jump l) hlaid).2 ho
      exact ⟨hparts, by simpa using hlands⟩
    | part c =>
      obtain ⟨hc, hrest⟩ := Laid.seq hsize ho.1.settles hlaid
      obtain ⟨hparts, hlands⟩ := ih hrest ho.2
      exact ⟨⟨hc, hparts⟩, by simpa using hlands⟩

/-- **The parts of a statement occur where their code stands.** -/
theorem Occurs.part {o' : Occurrence} (hsize : f.code.size < 2 ^ 63) (ho : S.Occurs f r o)
    (hp : Part o o') : S.Occurs f r o' := by
  obtain ⟨code, d', hrun, -, hs⟩ := ho
  obtain ⟨c, rfl, hc⟩ := loweredStmt_of_lowerStmt hrun
  obtain ⟨pre, post, here, d₁, hin⟩ := hp.inside hc
  have hlaid := laid_located.mp hs.laid
  rw [hin.code] at hlaid
  obtain ⟨hparts, hlands⟩ := each_laid hsize hlaid hin.ordinary
  obtain ⟨_, hg, -⟩ := defers_of_lowerStmt (.inl hin.nested) hin.lowered
  have hframe := hin.frame.trans hs.frame
  refine ⟨here, d₁, hin.lowered, .inl hin.nested, hin.supply.extends.trans hs.grown, hframe,
    hin.frame.next.trans hs.next_le, hs.fits.follow hin.leads (hg.frame.trans hframe),
    fun l hl => ?_, ?_⟩
  · exact (hin.loop l hl).elim (hs.loop l) fun h => ⟨hlands _ h.1, hlands _ h.2⟩
  · rw [hin.addr]
    exact (Strand.each_append.mp hparts).2.1

/-! ## Every instruction keeps the discipline -/

theorem admitted_of_lowerStmts (hsize : f.code.size < 2 ^ 63) (hnest : site.nested = true)
    (ih : ∀ s ∈ body, ∀ {d d' addr code}, lowerStmt site s d = .ok (code, d') →
      S.Occurs f r ⟨site, d, s, addr⟩ → S.Admitted f r r addr code)
    (hrun : lowerStmts site body d = .ok (code, d')) (hs : S.Seated f r site d d' addr code) :
    S.Admitted f r r addr code := by
  induction body generalizing d addr code with
  | nil =>
    obtain ⟨rfl, rfl⟩ := lowerStmts_nil_eq_ok.mp hrun
    trivial
  | cons stmt rest ihl =>
    obtain ⟨here, d₁, after, hhere, hafter, rfl⟩ := lowerStmts_cons_eq_ok.mp hrun
    have hdefers := defers_of_nested hnest hafter
    obtain ⟨_, -, -, hleaves⟩ := defers_of_lowerStmt (.inl hnest) hhere
    refine admitted_seq hsize hleaves hs.laid (fun _ => ?_) fun _ => ?_
    · exact ih stmt List.mem_cons_self hhere ⟨here, d₁, hhere, .inl hnest, hs.head hdefers⟩
    · exact ihl (fun s hs => ih s (List.mem_cons_of_mem _ hs)) hafter
        (hs.tail hsize hhere (.inl hnest) hdefers)

/-- The condition of a branch or a loop, with the jump that follows it. -/
theorem admitted_test (hS : S.globals.Sound names) (hsize : f.code.size < 2 ^ 63) {limit : Nat}
    {scope : Scope} {fn l : String} {test : Option Expr} {test' : Option Code} {s s' : Supply}
    (hfit : S.Fits f limit scope) (ht : LoweredTest fn scope s test test' s')
    (hgrown : s'.globals.Extends S.globals) (hlimit : limit ≤ r) (hl : S.Lands f r r l)
    (hlaid : Laid S.program f r r addr (testCode l test')) :
    S.Admitted f r r addr (testCode l test') := by
  cases ht with
  | absent => trivial
  | @present e code ty s' hrun =>
    have hsz := hlaid.size_lt
    rw [size_testCode] at hsz
    obtain ⟨hrise, hres⟩ := leaves_of_lower _ _ _ hrun (by omega)
    simp only [testCode, conditionCode, laid_append] at hlaid
    have hadm := admitted_of_lower hS hsize hfit fn e hrun ⟨hgrown, hlimit, le_rfl, hlaid.1.1⟩
    simp [testCode, conditionCode, jumpIfZero, r0, hrise, hres, hadm, hl]

/-- An expression that is evaluated for its effect at the end of a loop. -/
theorem admitted_update (hS : S.globals.Sound names) (hsize : f.code.size < 2 ^ 63) {limit : Nat}
    {scope : Scope} {fn : String} {update : Option Expr} {s s' : Supply}
    (hfit : S.Fits f limit scope) (hu : LoweredUpdate fn scope s update code s')
    (hgrown : s'.globals.Extends S.globals) (hlimit : limit ≤ r)
    (hlaid : Laid S.program f r r addr code) : S.Admitted f r r addr code := by
  cases hu with
  | absent => trivial
  | present hu =>
    rw [admitted_located]
    exact admitted_of_lowerEffect hS hsize hfit hu ⟨hgrown, hlimit, le_rfl, laid_located.mp hlaid⟩

/-- Code in strands keeps the discipline if its parts do and jumps go to labels among the strands. -/
theorem admitted_codes (hsize : f.code.size < 2 ^ 63)
    (hlaid : Laid S.program f r r addr (Strand.codes ss))
    (ho : Strand.Each (fun _ => Ordinary) addr ss) (hjumps : ∀ l, .jump l ∈ ss → .label l ∈ ss)
    (h : (∀ l, .label l ∈ ss → S.Lands f r r l) → Strand.Each (Laid S.program f r r) addr ss →
      Strand.Each (S.Admitted f r r) addr ss) : S.Admitted f r r addr (Strand.codes ss) := by
  obtain ⟨hparts, hlands⟩ := each_laid hsize hlaid ho
  replace h := h hlands hparts
  replace hjumps : ∀ l, .jump l ∈ ss → S.Lands f r r l := fun l hl => hlands l (hjumps l hl)
  clear hparts hlands
  induction ss generalizing addr with
  | nil => trivial
  | cons s ss ih =>
    have hrest l (hl : .jump l ∈ ss) := hjumps l (.tail s hl)
    cases s with
    | label l => exact ih hlaid.2 ho h hrest
    | jump l =>
      exact admitted_seq hsize (settles_jump l) hlaid
        (fun _ => ⟨admits_rjmp.mpr (hjumps l (.head ss)), trivial⟩) fun hl => ih hl ho h hrest
    | part c =>
      exact admitted_seq hsize ho.1.settles hlaid (fun _ => h.1) fun hl => ih hl ho.2 h.2 hrest

theorem writes_newSlot {length : Option Nat} {h : Int}
    (hx : (d.frame.addLocal dr.name ty length).2.Extends f.frame) (hh : d.frame.next < h) :
    S.Writes f h ((newSlot d dr).operand none) := by
  refine ⟨⟨_, hx.entries (d.frame.get?_addLocal dr.name ty length), ?_, hh⟩, by
    simp [newSlot, Slot.operand]⟩
  simp only
  omega

/-- The store of a first value into a slot that is reserved. -/
theorem admitted_storeCode (hsize : f.code.size < 2 ^ 63) {dest : Operand} {initial : Initial}
    {s : Supply} (hS : S.globals.Sound names) (hinit : Initialized site ty dest d dr initial s)
    (hfit : S.Fits f d.frame.next d.scope) (hdest : S.Writes f r dest)
    (hgrown : s.globals.Extends S.globals) (hlimit : d.frame.next ≤ r)
    (hlaid : Laid S.program f r r addr (initial.storeCode ty dest)) :
    S.Admitted f r r addr (initial.storeCode ty dest) := by
  cases hinit with
  | default _ => simp [Initial.storeCode, hdest]
  | constant _ _ => simp [Initial.storeCode, hdest]
  | computed _ _ hst =>
    have ho := hfit.offers hlimit
    exact admitted_of_pieced hS hsize
      (hst.pieced ho hdest (pieced_of_lower ho (hfit.permits _)) 0) hgrown (by simp) hlaid

/-- A variable below the top level: its slot is reserved already. -/
theorem admitted_of_declared_nested (hS : S.globals.Sound names) (hsize : f.code.size < 2 ^ 63)
    (hnest : site.nested = true) (hcode : Declared site decl d dr code d')
    (hfit : S.Fits f d.frame.next d.scope) (hgrown : d'.supply.globals.Extends S.globals)
    (hframe : d'.frame.Extends f.frame) (hnext : d'.frame.next ≤ r)
    (hlaid : Laid S.program f r r addr code) : S.Admitted f r r addr code := by
  cases hcode with
  | array => simp [hnest]
  | @scalar initial s scope _ hinit _ =>
    rw [hnest, if_pos rfl, laid_located] at hlaid
    rw [hnest, if_pos rfl, admitted_located]
    have hlt : d.frame.next < r := hnext
    exact admitted_storeCode hsize hS hinit hfit (writes_newSlot hframe (by omega)) hgrown hlt.le
      hlaid

/-- A variable at the top level: its slot is the next one, and its code reserves it. -/
theorem admitted_of_declared_inline (hS : S.globals.Sound names) (hsize : f.code.size < 2 ^ 63)
    (hnest : site.nested = false) (hty : decl.ty ≠ .void) (hcode : Declared site decl d dr code d')
    (hfit : S.Fits f d.frame.next d.scope) (hgrown : d'.supply.globals.Extends S.globals)
    (hframe : d'.frame.Extends f.frame)
    (hlaid : Laid S.program f d.frame.next d.frame.next addr code) :
    S.Admitted f d.frame.next d.frame.next addr code := by
  cases hcode with
  | @array n scope _ _ _ =>
    have hg : d.Grows (declared site d d.supply decl.ty dr (some n) scope _) _ :=
      grows_declared hty .refl (some n) scope
    rw [hnest, if_neg Bool.false_ne_true]
    exact (hg.slots.extend hframe).admitted
  | @scalar initial s scope _ hinit _ =>
    rw [hnest, if_neg Bool.false_ne_true, laid_located] at hlaid
    rw [hnest, if_neg Bool.false_ne_true, admitted_located]
    have hslot {v : Value} (hv : v.ty = decl.ty) :
        S.Admitted f d.frame.next d.frame.next addr
          (Code.ofInstrs [slotInstr decl.ty dr.name v]) := by
      have howns := owns_addLocal d.frame dr.name decl.ty none Nat.zero_lt_one
      rw [← hv] at howns
      exact ((slotCode_slotInstr howns).extend (by rw [hv]; exact hframe)).admitted
    have hdefault : (Value.defaultOf decl.ty).ty = decl.ty := Value.ty_defaultOf hty
    cases hinit with
    | default _ => exact hslot hdefault
    | constant _ hv => exact hslot (ty_of_coerce (convertConstant_eq_ok.mp hv).2)
    | @computed init store s _ _ hst =>
      rw [Initial.slotCode, laid_append] at hlaid
      rw [Initial.slotCode, admitted_append]
      -- the default value makes the slot, and the initializer is then stored into it
      refine ⟨hslot hdefault, ?_⟩
      have hone : (Code.ofInstrs [slotInstr decl.ty dr.name (.defaultOf decl.ty)]).rise = 1 ∧
          (Code.ofInstrs [slotInstr decl.ty dr.name (.defaultOf decl.ty)]).reservations = 1 :=
        ⟨rfl, rfl⟩
      rw [hone.1, hone.2] at hlaid ⊢
      have ho := hfit.offers (Nat.le_succ d.frame.next)
      have hnew : S.Writes f (d.frame.next + 1 : Nat) _ :=
        writes_newSlot hframe (Int.ofNat_lt.mpr (Nat.lt_succ_self _))
      exact admitted_of_pieced hS hsize
        (hst.pieced ho hnew (pieced_of_lower ho (hfit.permits _)) 0) hgrown (by simp) hlaid.2

theorem admitted_of_declareLocals_nested (hS : S.globals.Sound names) (hsize : f.code.size < 2 ^ 63)
    (hnest : site.nested = true) (hty : decl.ty ≠ .void)
    (hrun : declareLocals site decl drs d = .ok (code, d'))
    (hs : S.Seated f r site d d' addr code) : S.Admitted f r r addr code := by
  induction drs generalizing d code addr with
  | nil =>
    cases hrun
    trivial
  | cons dr rest ih =>
    obtain ⟨here, d₁, after, hd, hr, rfl⟩ := declareLocals_cons_eq_ok hrun
    obtain ⟨hgrown, hframe, hnext, hfits, hloop, hlaid⟩ := hs
    have hsz := hlaid.size_lt
    rw [Code.size_append] at hsz
    rw [laid_append] at hlaid
    obtain ⟨_, hg, -⟩ := grows_of_declareLocals hty hr
    obtain ⟨_, -, -, hcounts⟩ := grows_of_declared hty hd
    obtain ⟨hrise, hres⟩ := hcounts (by omega)
    rw [hnest, if_pos rfl] at hres
    rw [hrise, hres, Nat.cast_zero, Int.add_zero, Nat.add_zero] at hlaid
    rw [admitted_append, hrise, hres, Nat.cast_zero, Int.add_zero, Nat.add_zero]
    exact ⟨admitted_of_declared_nested hS hsize hnest hd hfits (hg.supply.extends.trans hgrown)
        (hg.frame.trans hframe) (hg.frame.next.trans hnext) hlaid.1,
      ih hr ⟨hgrown, hframe, hnext, hfits.follow (leads_of_declared hd) (hg.frame.trans hframe),
        hloop, hlaid.2⟩⟩

/-- **Every instruction of a statement keeps the discipline.** -/
theorem admitted_of_lowerStmt (hS : S.globals.Sound names) (hsize : f.code.size < 2 ^ 63)
    (hrun : lowerStmt site stmt d = .ok (code, d')) ⦃addr : Nat⦄
    (ho : S.Occurs f r ⟨site, d, stmt, addr⟩) : S.Admitted f r r addr code := by
  revert addr
  -- the parts of a statement occur where their strands start, so that the hypothesis applies
  refine lowerStmt_induct (fun {site d stmt c d'} hrun hc ih addr ho => ?_) hrun
  obtain ⟨hgrown, hframe, hnext, hfits, hloop, hlaid⟩ := ho.seated hrun
  rw [laid_located] at hlaid
  rw [admitted_located]
  cases hc with
  | declare hty hd =>
    have hnest : site.nested = true := ho.deferred.resolve_right fun h => h _ rfl
    exact admitted_of_declareLocals_nested hS hsize hnest hty hd
      ⟨hgrown, hframe, hnext, hfits, hloop, hlaid⟩
  | block hb =>
    exact admitted_of_lowerStmts hsize rfl (fun s hs _ _ _ _ hr ho => ih (.inBlock hs) hr ho) hb
      ⟨hgrown, hframe, hnext, hfits, hloop, hlaid⟩
  | branch ht hthen =>
    obtain ⟨_, hg, -⟩ := defers_of_lowerStmt (.inl rfl) hthen
    rw [branchCode_eq] at hlaid ⊢
    refine admitted_codes hsize hlaid ⟨.test (.present ht), .stmt rfl (.present hthen), trivial⟩
      (by simp) fun hlands hparts => ⟨?_, ?_, trivial⟩
    · exact admitted_test hS hsize hfits (.present ht) (hg.supply.extends.trans hgrown)
        (hg.frame.next.trans hnext) (hlands _ (by simp)) hparts.1
    · simpa [Nat.add_assoc] using ih .consequent hthen (ho.part hsize (.consequent ht))
  | branchElse ht hthen helse =>
    obtain ⟨_, hg, -⟩ := defers_of_lowerStmt (.inl rfl) hthen
    obtain ⟨_, hg', -⟩ := defers_of_lowerStmt (.inl rfl) helse
    have hdraws := hg.supply.trans ((Draws.refl.labels 1).trans hg'.supply)
    rw [branchElseCode_eq] at hlaid ⊢
    refine admitted_codes hsize hlaid ⟨.test (.present ht), .stmt rfl (.present hthen),
      .stmt rfl (.present helse), trivial⟩ (by simp) fun hlands hparts => ⟨?_, ?_, ?_, trivial⟩
    · exact admitted_test hS hsize hfits (.present ht) (hdraws.extends.trans hgrown)
        ((hg.frame.next.trans hg'.frame.next).trans hnext) (hlands _ (by simp)) hparts.1
    · simpa [Nat.add_assoc] using ih .consequent hthen (ho.part hsize (.consequent ht))
    · convert ih (.alternate rfl) helse (ho.part hsize (.alternate ht hthen)) using 1
      simp
      omega
  | whileLoop ht hb =>
    obtain ⟨_, hg, -⟩ := defers_of_lowerStmt (.inl rfl) hb
    rw [whileCode_eq] at hlaid ⊢
    refine admitted_codes hsize hlaid ⟨.test (.present ht), .stmt rfl (.present hb), trivial⟩
      (by simp) fun hlands hparts => ⟨?_, ?_, trivial⟩
    · exact admitted_test hS hsize hfits (.present ht) (hg.supply.extends.trans hgrown)
        (hg.frame.next.trans hnext) (hlands _ (by simp)) hparts.1
    · simpa [Nat.add_assoc] using ih .whileBody hb (ho.part hsize (.whileBody ht))
  | doLoop hb ht =>
    obtain ⟨_, hg, -⟩ := defers_of_lowerStmt (.inl rfl) hb
    rw [doCode_eq] at hlaid ⊢
    refine admitted_codes hsize hlaid ⟨.stmt rfl (.present hb), .test (.present ht), trivial⟩
      (by simp) fun hlands hparts => ⟨ih .doBody hb (ho.part hsize .doBody), ?_, trivial⟩
    exact admitted_test hS hsize (hfits.mono hg.frame.next) (.present ht) hgrown hnext
      (hlands _ (by simp)) hparts.2.1
  | @forLoop _ _ _ _ _ _ _ _ _ _ _ d₁ _ hi ht hb hu =>
    have hpart := ho.part hsize (.forBody hi ht)
    -- test and update are lowered in the scope of the body
    have hfits₁ : S.Fits f d₁.frame.next d₁.scope := (hpart.seated hb).fits
    obtain ⟨_, hg, -⟩ := defers_of_lowerStmt (.inl rfl) hb
    have hlimit : d₁.frame.next ≤ r := hg.frame.next.trans hnext
    rw [forCode_eq] at hlaid ⊢
    refine admitted_codes hsize hlaid ⟨.stmt rfl hi, .test ht, .stmt rfl (.present hb), .update hu,
      trivial⟩ (by simp) fun hlands hparts => ⟨?_, ?_, ih .forBody hb hpart, ?_, trivial⟩
    · cases hi with
      | absent => trivial
      | present hi => exact ih (.forInit rfl) hi (ho.part hsize .forInit)
    · exact admitted_test hS hsize hfits₁ ht ((hg.supply.trans hu.draws).extends.trans hgrown)
        hlimit (hlands _ (by simp)) hparts.2.1
    · exact admitted_update hS hsize hfits₁ hu hgrown hlimit hparts.2.2.2.1
  | ret _ => simp
  | retValue _ hv =>
    have hlaid' := (laid_append.mp hlaid).1
    obtain ⟨h₁, h₂⟩ := hv.leaves (hlaid'.size_lt.trans hsize)
    have ho := hfits.offers hnext
    have hadm := admitted_of_pieced hS hsize
      (hv.pieced (pieced_of_lower ho (hfits.permits _)) 0) hgrown (by simp) hlaid'
    simp [rv, h₁, h₂, hadm]
  | brk hl => simp [jump, (hloop _ hl).2]
  | cont hl => simp [jump, (hloop _ hl).1]
  | expr he => exact admitted_of_lowerEffect hS hsize hfits he ⟨hgrown, hnext, le_rfl, hlaid⟩

/-! ## Function bodies -/

/-- A statement of a function body, with its reservations in front. -/
theorem grows_of_bodyStmt (hnest : site.nested = false) (hempty : d.reserved = [])
    (hrun : lowerStmt site stmt d = .ok (here, d₁)) :
    ∃ slots, d.Grows d₁ slots ∧ (Deferred site stmt → d₁.reserved = slots) ∧
      (¬ Deferred site stmt → d₁.reserved = []) ∧
      ((d₁.reserved ++ here).size < 2 ^ 63 → (d₁.reserved ++ here).rise = slots.size ∧
        (d₁.reserved ++ here).reservations = slots.size) := by
  by_cases hdef : Deferred site stmt
  · obtain ⟨slots, hg, hres, hleaves⟩ := defers_of_lowerStmt hdef hrun
    rw [hempty, List.nil_append] at hres
    refine ⟨slots, hg, fun _ => hres, fun h => absurd hdef h, fun hsize => ?_⟩
    rw [Code.size_append] at hsize
    obtain ⟨h₁, h₂⟩ := hleaves (by omega)
    obtain ⟨h₃, h₄⟩ := hg.slots.counts
    simp [hres, h₁, h₂, h₃, h₄]
  · obtain ⟨decl, rfl⟩ := exists_declare_of_not_deferred hdef
    obtain ⟨c, rfl, hc⟩ := loweredStmt_of_lowerStmt hrun
    cases hc with
    | declare hty hd =>
      obtain ⟨slots, hg, hres, hcounts⟩ := grows_of_declareLocals hty hd
      rw [hnest, if_neg Bool.false_ne_true, hempty] at hres
      refine ⟨slots, hg, fun h => absurd h hdef, fun _ => hres, fun hsize => ?_⟩
      rw [hres, List.nil_append, Code.size_located] at hsize
      obtain ⟨h₁, h₂⟩ := hcounts hsize
      rw [hnest, if_neg Bool.false_ne_true] at h₂
      simp [hres, h₁, h₂]

theorem grows_of_lowerBody (hnest : site.nested = false) (hempty : d.reserved = [])
    (hrun : lowerBody site body d = .ok (code, d')) : ∃ slots, d.Grows d' slots := by
  induction body generalizing d code with
  | nil =>
    obtain ⟨rfl, rfl⟩ := lowerBody_nil_eq_ok.mp hrun
    exact ⟨[], .draw .refl rfl⟩
  | cons stmt rest ih =>
    obtain ⟨here, d₁, after, hhere, hafter, rfl⟩ := lowerBody_cons_eq_ok.mp hrun
    obtain ⟨a, ha, -⟩ := grows_of_bodyStmt hnest hempty hhere
    obtain ⟨b, hb⟩ := ih rfl hafter
    have hb' : d₁.Grows d' b :=
      ⟨hb.supply, hb.frame, hb.sound, hb.next, hb.defaults, hb.slots, hb.below⟩
    exact ⟨a ++ b, ha.trans hb'⟩

/-- The rest of a function body stands at an address where exactly the slots of the variables so far
are reserved. -/
structure Rooted (S : Setting) (f : Routine) (d d' : Draft) (addr : Nat) (code : Code) : Prop where
  empty : d.reserved = []
  grown : d'.supply.globals.Extends S.globals
  frame : d'.frame.Extends f.frame
  fits : S.Fits f d.frame.next d.scope
  laid : Laid S.program f d.frame.next d.frame.next addr code

/-- The statements after the first one of a body. -/
theorem Rooted.tail (hsize : f.code.size < 2 ^ 63) (hnest : site.nested = false)
    (hroot : S.Rooted f d d' addr (d₁.reserved ++ here ++ after))
    (hrun : lowerStmt site stmt d = .ok (here, d₁))
    (hafter : lowerBody site rest d₁.emptied = .ok (after, d')) :
    S.Rooted f d₁.emptied d' (addr + (d₁.reserved ++ here).size) after := by
  obtain ⟨hempty, hgrown, hframe, hfits, hlaid⟩ := hroot
  have hsz := hlaid.size_lt
  rw [Code.size_append] at hsz
  obtain ⟨slots, hg, -, -, hcounts⟩ := grows_of_bodyStmt hnest hempty hrun
  obtain ⟨_, hg'⟩ := grows_of_lowerBody hnest rfl hafter
  obtain ⟨hrise, hres⟩ := hcounts (by omega)
  have hlaid' := (laid_append.mp hlaid).2
  rw [hrise, hres, ← Nat.cast_add, ← hg.next] at hlaid'
  have hfits' := hfits.follow (leads_of_lowerStmt hrun) (hg'.frame.trans hframe)
  exact ⟨rfl, hgrown, hframe, hfits', hlaid'⟩

/-- The first statement of a body, if its variables are below it, occurs after its reservations. -/
theorem Rooted.occurs (hnest : site.nested = false) (hloop : site.loop = none)
    (hroot : S.Rooted f d d' addr (d₁.reserved ++ here ++ after))
    (hrun : lowerStmt site stmt d = .ok (here, d₁)) (hdef : Deferred site stmt)
    (hafter : lowerBody site rest d₁.emptied = .ok (after, d')) :
    S.Occurs f d₁.frame.next ⟨site, d, stmt, addr + d₁.reserved.size⟩ := by
  obtain ⟨hempty, hgrown, hframe, hfits, hlaid⟩ := hroot
  obtain ⟨slots, hg, hslots, -⟩ := grows_of_bodyStmt hnest hempty hrun
  obtain ⟨_, hg'⟩ := grows_of_lowerBody hnest rfl hafter
  refine ⟨here, d₁, hrun, hdef, hg'.supply.extends.trans hgrown, hg'.frame.trans hframe, le_rfl,
    hfits, by simp [hloop], ?_⟩
  obtain ⟨hrise, hres⟩ := hg.slots.counts
  have hlaid' := (laid_append.mp (laid_append.mp hlaid).1).2
  rw [hslots hdef] at hlaid' ⊢
  rwa [hrise, hres, ← Nat.cast_add, ← hg.next] at hlaid'

theorem admitted_of_declareLocals_inline (hS : S.globals.Sound names) (hsize : f.code.size < 2 ^ 63)
    (hnest : site.nested = false) (hty : decl.ty ≠ .void)
    (hrun : declareLocals site decl drs d = .ok (code, d')) (hroot : S.Rooted f d d' addr code) :
    S.Admitted f d.frame.next d.frame.next addr code := by
  induction drs generalizing d code addr with
  | nil =>
    cases hrun
    trivial
  | cons dr rest ih =>
    obtain ⟨here, d₁, after, hd, hr, rfl⟩ := declareLocals_cons_eq_ok hrun
    obtain ⟨hempty, hgrown, hframe, hfits, hlaid⟩ := hroot
    have hsz := hlaid.size_lt
    rw [Code.size_append] at hsz
    obtain ⟨slots, hg, hres', hcounts⟩ := grows_of_declared hty hd
    obtain ⟨_, hg', -⟩ := grows_of_declareLocals hty hr
    obtain ⟨hrise, hres⟩ := hcounts (by omega)
    rw [hnest, if_neg Bool.false_ne_true] at hres hres'
    rw [laid_append, hrise, hres, ← Nat.cast_add, ← hg.next] at hlaid
    rw [admitted_append, hrise, hres, ← Nat.cast_add, ← hg.next]
    exact ⟨admitted_of_declared_inline hS hsize hnest hty hd hfits (hg'.supply.extends.trans hgrown)
        (hg'.frame.trans hframe) hlaid.1,
      ih hr ⟨hres'.trans hempty, hgrown, hframe,
        hfits.follow (leads_of_declared hd) (hg'.frame.trans hframe), hlaid.2⟩⟩

theorem admitted_of_bodyStmt (hS : S.globals.Sound names) (hsize : f.code.size < 2 ^ 63)
    (hnest : site.nested = false) (hloop : site.loop = none)
    (hroot : S.Rooted f d d' addr (d₁.reserved ++ here ++ after))
    (hrun : lowerStmt site stmt d = .ok (here, d₁))
    (hafter : lowerBody site rest d₁.emptied = .ok (after, d')) :
    S.Admitted f d.frame.next d.frame.next addr (d₁.reserved ++ here) := by
  obtain ⟨_, hg'⟩ := grows_of_lowerBody hnest rfl hafter
  obtain ⟨slots, hg, hslots, hnone, -⟩ := grows_of_bodyStmt hnest hroot.empty hrun
  by_cases hdef : Deferred site stmt
  · have hadm := admitted_of_lowerStmt hS hsize hrun (hroot.occurs hnest hloop hrun hdef hafter)
    obtain ⟨hrise, hres⟩ := hg.slots.counts
    rw [hslots hdef] at hadm ⊢
    rw [admitted_append, hrise, hres, ← Nat.cast_add, ← hg.next]
    exact ⟨(hg.slots.extend (hg'.frame.trans hroot.frame)).admitted, hadm⟩
  · obtain ⟨decl, rfl⟩ := exists_declare_of_not_deferred hdef
    obtain ⟨hempty, hgrown, hframe, hfits, hlaid⟩ := hroot
    obtain ⟨c, rfl, hc⟩ := loweredStmt_of_lowerStmt hrun
    have hlaid' := (laid_append.mp hlaid).1
    rw [hnone hdef, List.nil_append, laid_located] at hlaid'
    rw [hnone hdef, List.nil_append, admitted_located]
    cases hc with
    | declare hty hd =>
      exact admitted_of_declareLocals_inline hS hsize hnest hty hd
        ⟨hempty, hg'.supply.extends.trans hgrown, hg'.frame.trans hframe, hfits, hlaid'⟩

/-- **Every instruction of a function body keeps the discipline.** -/
theorem admitted_of_lowerBody (hS : S.globals.Sound names) (hsize : f.code.size < 2 ^ 63)
    (hnest : site.nested = false) (hloop : site.loop = none)
    (hrun : lowerBody site body d = .ok (code, d')) (hroot : S.Rooted f d d' addr code) :
    S.Admitted f d.frame.next d.frame.next addr code := by
  induction body generalizing d addr code with
  | nil =>
    obtain ⟨rfl, rfl⟩ := lowerBody_nil_eq_ok.mp hrun
    trivial
  | cons stmt rest ih =>
    obtain ⟨here, d₁, after, hhere, hafter, rfl⟩ := lowerBody_cons_eq_ok.mp hrun
    have hsz := hroot.laid.size_lt
    rw [Code.size_append] at hsz
    obtain ⟨slots, hg, -, -, hcounts⟩ := grows_of_bodyStmt hnest hroot.empty hhere
    obtain ⟨hrise, hres⟩ := hcounts (by omega)
    have hrest := ih hafter (hroot.tail hsize hnest hhere hafter)
    rw [admitted_append, hrise, hres, ← Nat.cast_add, ← hg.next]
    exact ⟨admitted_of_bodyStmt hS hsize hnest hloop hroot hhere hafter, hrest⟩

end Stepwise.Setting
