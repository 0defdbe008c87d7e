import Mathlib
import Stepwise.Proofs.LiveVariables
import Stepwise.Proofs.StraightCode

/-!
# Declarations that start fresh

A local variable without initializer holds the default value of its type whenever control has passed
its declaration, in every pass of a loop around it and in every call: at the top level of a function
body the declaration reserves slots that hold it, and below the top level it writes it into the slot.
An array below the top level is the exception. Its slots get their first values where they are
reserved, in front of the statement of the body that it lies in, and its declaration does nothing, so
the second pass of a loop finds what the first one has left.

## Main definitions

* `Definition.Declares`: the declaration of one variable, with its code and address

## Main results

* `Lowering.turns_of_slotCode`: code that reserves slots leaves default values there
* `fresh_declarations`: which declarations start fresh
-/

namespace Stepwise

namespace Compiler.Definition

open Lowering

/-- One of the variables that a statement of a function declares: the draft in which it is declared,
the code of its declaration and the address of the code. -/
structure Declares (d : Definition) (start : Nat) (o : Occurrence) (decl : Declaration)
    (dr : Declarator) (draft : Draft) (addr : Nat) (code : Code) : Prop where
  occurs : d.Contains start o
  stmt : o.stmt = .declare decl
  place : ∃ pre post before draft', decl.declarators = pre ++ dr :: post ∧
    declareLocals o.site decl pre o.draft = .ok (before, draft) ∧
    declareLocals o.site decl [dr] draft = .ok (code, draft') ∧ addr = o.addr + before.size

end Compiler.Definition

namespace Lowering

/-- **Code that reserves slots** leaves the default values of the types of their variables there. -/
theorem turns_of_slotCode {frame : FrameLayout} {k : Nat} {c : Code} (hslots : SlotCode frame k c)
    (hdefaults : ∀ i ∈ c.instrs, ∀ v, i.dest = some (.imm v) → v = .defaultOf v.ty) (s : State) :
    ∃ vs, c.Turns frame s { s with stack := s.stack ++ List.toArray vs } ∧ vs.length = c.size ∧
      ∀ j v, vs[j]? = some v → frame.Owns (k + j) v.ty ∧ v = .defaultOf v.ty := by
  -- one reservation after the other; the slot owned first moves up with the stack
  induction c generalizing k s with
  | nil =>
    refine ⟨[], ?_, rfl, by simp⟩
    rw [show s.stack ++ List.toArray [] = s.stack by simp]
    exact .nil
  | cons line c ih =>
    cases line with
    | label name => exact hslots.elim
    | instr i =>
      obtain ⟨⟨v, comment, hi, howns⟩, hrest⟩ := hslots
      have hdest : i.dest = some (.imm v) := congrArg Instr.dest hi
      have hpush : Code.Turns frame [.instr i] s (s.push v) :=
        turns_push ⟨congrArg Instr.op hi, hdest, congrArg Instr.src hi⟩ (settles_imm v) rfl
      obtain ⟨vs, hturns, hlength, hvs⟩ :=
        ih hrest (fun j hj => hdefaults j (List.mem_cons_of_mem _ hj)) (s.push v)
      refine ⟨v :: vs, ?_, congrArg (· + 1) hlength, ?_⟩
      · have hstack : s.stack ++ List.toArray (v :: vs) = s.stack.push v ++ List.toArray vs := by
          simp
        rw [hstack]
        exact hpush.append hturns
      · intro j w hw
        cases j with
        | zero =>
          cases hw
          exact ⟨howns, hdefaults i List.mem_cons_self v hdest⟩
        | succ j =>
          rw [List.getElem?_cons_succ] at hw
          rw [show k + (j + 1) = k + 1 + j by omega]
          exact hvs j w hw

variable {code : Code} {d d' : Draft} {decl : Declaration} {site : Site} {dr : Declarator}

/-- Some variables are declared and then others. -/
theorem declareLocals_append_eq_ok {pre rest : List Declarator} {d₁ : Draft} {before : Code}
    (hpre : declareLocals site decl pre d = .ok (before, d₁))
    (h : declareLocals site decl (pre ++ rest) d = .ok (code, d')) :
    ∃ after, declareLocals site decl rest d₁ = .ok (after, d') ∧ code = before ++ after := by
  induction pre generalizing d before code with
  | nil =>
    cases hpre
    exact ⟨code, h, rfl⟩
  | cons dr pre ih =>
    rw [List.cons_append] at h
    obtain ⟨here, d₂, before', hhere, hbefore, rfl⟩ := declareLocals_cons_iff.mp hpre
    obtain ⟨here', d₃, code', hhere', hcode, rfl⟩ := declareLocals_cons_iff.mp h
    cases hhere.symm.trans hhere'
    obtain ⟨after, hafter, rfl⟩ := ih hbefore hcode
    exact ⟨after, hafter, (List.append_assoc _ _ _).symm⟩

/-- A declared variable has an entry in the frame with its type and its slots. -/
theorem entry_of_declared (h : Declared site decl d dr code d') :
    ∃ e, d'.frame.entries.get? (d.frame.freshKey dr.name) = some e ∧ e.ty = decl.ty ∧
      e.span = decl.span dr := by
  cases h with
  | @array n _ harray hlength _ =>
    exact ⟨_, d.frame.get?_addLocal dr.name decl.ty (some n), rfl,
      (Declaration.span_of_arrayLength harray hlength).symm⟩
  | scalar hscalar _ _ =>
    refine ⟨_, d.frame.get?_addLocal dr.name decl.ty none, rfl, ?_⟩
    simp [FrameEntry.span, Declaration.span, hscalar]

/-- At the top level of a body, the code of a declaration without initializer reserves slots. -/
theorem slotCode_of_declared (hty : decl.ty ≠ .void) (hn : site.nested = false)
    (hnone : dr.initializer = none) (h : Declared site decl d dr code d') :
    ∃ length, d'.frame = (d.frame.addLocal dr.name decl.ty length).2 ∧
      SlotCode d'.frame d.frame.next code ∧
      (∀ i ∈ code.instrs, ∀ v, i.dest = some (.imm v) → v = .defaultOf v.ty) ∧
      code.size = length.getD 1 := by
  have hdefault : (Value.defaultOf decl.ty).ty = decl.ty := Value.ty_defaultOf hty
  cases h with
  | @array n scope _ _ _ =>
    have hgrows : d.Grows (declared site d d.supply decl.ty dr (some n) scope
        (declaredSlots decl dr (some n))) (declaredSlots decl dr (some n)) :=
      grows_declared hty .refl (some n) scope
    rw [hn, if_neg Bool.false_ne_true]
    exact ⟨some n, rfl, hgrows.slots, hgrows.defaults,
      Nat.add_left_cancel hgrows.next.symm⟩
  | @scalar initial s scope _ hinit _ =>
    cases hinit with
    | default =>
      rw [hn, if_neg Bool.false_ne_true]
      have howns := owns_addLocal d.frame dr.name decl.ty none Nat.zero_lt_one
      rw [← hdefault] at howns
      refine ⟨none, rfl, ⟨⟨.defaultOf decl.ty, _, rfl, ?_⟩, trivial⟩, ?_, rfl⟩
      · rw [hdefault] at howns ⊢
        exact howns
      · intro i hi v hv
        cases List.mem_singleton.mp hi
        cases hv
        rw [hdefault]
    | constant hi => cases hnone.symm.trans hi
    | computed hi => cases hnone.symm.trans hi

/-- Below the top level, the code of a variable without initializer is a move of the default value
into its slot. -/
theorem storeCode_of_declared (hn : site.nested = true) (hscalar : decl.isArray = false)
    (hnone : dr.initializer = none) (h : Declared site decl d dr code d') :
    d'.frame = (d.frame.addLocal dr.name decl.ty none).2 ∧
      code = Code.located dr.loc (Code.ofInstrs
        [.mov ((newSlot d dr).operand none) (.imm (.defaultOf decl.ty))]) := by
  cases h with
  | array harray => exact absurd (hscalar.symm.trans harray) Bool.false_ne_true
  | scalar _ hinit _ =>
    cases hinit with
    | default =>
      rw [hn, if_pos rfl]
      exact ⟨rfl, rfl⟩
    | constant hi => cases hnone.symm.trans hi
    | computed hi => cases hnone.symm.trans hi

theorem nested_of_part {o o' : Occurrence} (h : Part o o') : o'.site.nested = true := by
  cases h <;> rfl

end Lowering

namespace Compiler.Compilation

open Lowering

variable {σ : Type} {hosts : List HostDecl} {program : Program} {image : Image}
  (c : Compilation hosts program image)

variable {d : Definition} {decl : Declaration} {entry addr : Nat} {o : Occurrence} {code : Code}
  {dr : Declarator} {draft : Draft} {m : Machine σ}

/-- The code of a declaration stands where all slots of its variables are reserved if it lies below
the top level, and where the slots before them are if it does not. -/
theorem laid_of_contains (hsize : image.Addressable) (hr : d.routine entry ∈ c.setting.routines)
    (hd : d ∈ c.definitions) (ho : d.Contains entry o) (hstmt : o.stmt = .declare decl) :
    ∃ (code : Code) (d' : Draft) (r : Nat), decl.ty ≠ .void ∧
      declareLocals o.site decl decl.declarators o.draft = .ok (code, d') ∧
      d'.frame.Extends (d.routine entry).frame ∧
      Laid c.setting.program (d.routine entry) r r o.addr code ∧
      (o.site.nested = true → d'.frame.next ≤ r) ∧
      (o.site.nested = false → r = o.draft.frame.next) := by
  have hfit := c.size_lt_of_routine hsize hr
  cases ho with
  | @body pre post stmt before here d₁ d₂ hbody hpre hlower =>
    simp only at hstmt
    subst hstmt
    have hrun := (c.compiled hd).lowered
    rw [hbody] at hrun
    obtain ⟨after, hrest, hroot⟩ := (c.rooted hr hd).rest hfit rfl hpre hrun
    obtain ⟨here', d₃, after', hhere', hafter', rfl⟩ := lowerBody_cons_eq_ok.mp hrest
    cases hlower.symm.trans hhere'
    obtain ⟨_, hgrows'⟩ := Setting.grows_of_lowerBody rfl rfl hafter'
    -- a declaration at the top level reserves its slots itself, so nothing stands in front of it
    have hinline : ¬ Deferred d.site (.declare decl) := by
      rintro (hnested | hne)
      · cases hnested
      · exact hne decl rfl
    obtain ⟨_, -, -, hnone, -⟩ := Setting.grows_of_bodyStmt rfl hroot.empty hlower
    have hlaid := (laid_append.mp hroot.laid).1
    rw [hnone hinline, List.nil_append] at hlaid
    rw [hnone hinline, Code.size_nil, Nat.add_zero]
    obtain ⟨code, rfl, hc⟩ := loweredStmt_of_lowerStmt hlower
    rw [laid_located] at hlaid
    cases hc with
    | declare hty hdecl =>
      exact ⟨code, d₂, d₁.frame.next, hty, hdecl, hgrows'.frame.trans hroot.frame, hlaid,
        fun hnested => absurd hnested Bool.false_ne_true, fun _ => rfl⟩
  | @part o₀ _ ho hp =>
    have hnested := nested_of_part hp
    rcases c.occurs_of_contains hsize hr hd ho with ⟨k, hoccurs⟩ | ⟨⟨decl', hdecl⟩, -⟩
    · obtain ⟨code, d', hlower, -, hseated⟩ := hoccurs.part hfit hp
      rw [hstmt] at hlower
      obtain ⟨code, rfl, hc⟩ := loweredStmt_of_lowerStmt hlower
      have hlaid := hseated.laid
      rw [laid_located] at hlaid
      cases hc with
      | declare hty hdecl =>
        exact ⟨code, d', k, hty, hdecl, hseated.frame, hlaid, fun _ => hseated.next_le,
          fun hn => absurd (hnested.symm.trans hn) (by decide)⟩
    · -- a declaration has no parts
      cases hp <;> cases hdecl

/-- Where the code of one declared variable stands. -/
theorem laid_of_declares (hsize : image.Addressable) (hr : d.routine entry ∈ c.setting.routines)
    (hd : d ∈ c.definitions) (h : d.Declares entry o decl dr draft addr code) :
    ∃ (draft' : Draft) (r : Nat), decl.ty ≠ .void ∧ Declared o.site decl draft dr code draft' ∧
      draft'.frame.Extends (d.routine entry).frame ∧
      Laid c.setting.program (d.routine entry) r r addr code ∧
      (o.site.nested = true → draft'.frame.next ≤ r) ∧
      (o.site.nested = false → r = draft.frame.next) := by
  obtain ⟨ho, hstmt, pre, post, before, draft', hdecls, hpre, hone, rfl⟩ := h
  obtain ⟨all, d', r, hty, hall, hframe, hlaid, hnested, hinline⟩ :=
    c.laid_of_contains hsize hr hd ho hstmt
  rw [hdecls] at hall
  obtain ⟨after, hafter, rfl⟩ := declareLocals_append_eq_ok hpre hall
  obtain ⟨_, _, rest, hone', hrest, rfl⟩ := declareLocals_cons_iff.mp hafter
  cases hone.symm.trans hone'
  obtain ⟨here, d₁, nothing, hdeclared, hnothing, rfl⟩ := declareLocals_cons_eq_ok hone
  cases hnothing
  rw [List.append_nil] at hlaid ⊢
  -- the variables declared before it may have reserved slots, which moves the height
  obtain ⟨slots, hgrows, -, hcounts⟩ := grows_of_declareLocals hty hpre
  obtain ⟨_, hgrows', -⟩ := grows_of_declareLocals hty hrest
  have hsz := hlaid.size_lt
  have hfit := c.size_lt_of_routine hsize hr
  rw [Code.size_append] at hsz
  obtain ⟨hrise, hres⟩ := hcounts (by omega)
  have hlaid' := (laid_append.mp (laid_append.mp hlaid).2).1
  rw [hrise, ← Nat.cast_add] at hlaid'
  refine ⟨draft', _, hty, hdeclared, hgrows'.frame.trans hframe, hlaid', ?_, ?_⟩
  · intro hn
    exact (hgrows'.frame.next.trans (hnested hn)).trans (Nat.le_add_right _ _)
  · intro hn
    rw [hres, hinline hn, hgrows.next, hn]
    rfl

/-- Slots that code has just reserved hold the default value of the type of their variable. -/
theorem slots_of_slotCode (hsize : image.Addressable) (hr : d.routine entry ∈ c.setting.routines)
    (hd : d ∈ c.definitions) {r : Nat} (hslots : SlotCode (d.routine entry).frame r code)
    (hdefaults : ∀ i ∈ code.instrs, ∀ v, i.dest = some (.imm v) → v = .defaultOf v.ty)
    (hlaid : Laid c.setting.program (d.routine entry) r r addr code) (himage : m.image = image)
    (hs : c.setting.Steady m.state) (hpc : m.state.pc = addr) :
    ∃ m', Machine.Steps code.size m m' ∧ m'.state.pc = addr + code.size ∧
      m'.state.bp = m.state.bp ∧ m'.state.frames = m.state.frames ∧
      ∀ key e, (d.routine entry).frame.entries.get? key = some e → ∀ k : Nat, e.Covers k → r ≤ k →
        k < r + code.size → m'.state.stack[m'.state.bp + k]? = some (.defaultOf e.ty) := by
  have hat := hlaid.start
  rw [← hpc] at hat
  obtain ⟨frame, rest, -, hactive⟩ := c.active_of_steady hsize hs hr hat.holds
  have hsp : m.state.stack.size = m.state.bp + r := by
    have hheight := hactive.height
    rw [hat.height, State.sp] at hheight
    omega
  obtain ⟨vs, hturns, hlength, hvs⟩ := turns_of_slotCode hslots hdefaults m.state
  have hplaced : Placed ⟨m.image.code, c.setting.program.labels⟩ (d.routine entry).frame
      m.state.pc code := by
    rw [himage, hpc]
    exact hlaid.placed
  obtain ⟨m', hsteps, -, -, -, hm'⟩ := hturns σ m _ _ m.state.steps rfl hplaced
  have hbp : m'.state.bp = m.state.bp := by rw [hm']; rfl
  have hstack : m'.state.stack = m.state.stack ++ List.toArray vs := by rw [hm']; rfl
  refine ⟨m', hsteps, ?_, hbp, by rw [hm']; rfl, ?_⟩
  · rw [hm', ← hpc]
    rfl
  intro key e hkey k hcovers hle hlt
  have hj : k - r < vs.length := by omega
  obtain ⟨⟨key', e', hkey', hcovers', hty⟩, hdefault⟩ := hvs (k - r) _ (List.getElem?_eq_getElem hj)
  rw [Nat.add_sub_cancel' hle] at hcovers'
  -- two variables that cover one slot are the same
  obtain rfl := (c.compiled hd).frame_sound.separate hkey' hkey hcovers' hcovers
  cases hkey.symm.trans hkey'
  rw [hbp, hstack, Array.getElem?_append_right (by omega), hsp]
  rw [show m.state.bp + k - (m.state.bp + r) = k - r by omega, hty, ← hdefault]
  simp

/-- At the top level of a body, a declaration without initializer leaves default values. -/
theorem fresh_of_inline (hsize : image.Addressable) (hr : d.routine entry ∈ c.setting.routines)
    (hd : d ∈ c.definitions) (h : d.Declares entry o decl dr draft addr code)
    (hn : o.site.nested = false) (hnone : dr.initializer = none) {e : FrameEntry}
    (he : (d.routine entry).frame.entries.get? (draft.frame.freshKey dr.name) = some e)
    (himage : m.image = image) (hs : c.setting.Steady m.state) (hpc : m.state.pc = addr) :
    ∃ m', Machine.Steps code.size m m' ∧ m'.state.pc = addr + code.size ∧
      m'.state.bp = m.state.bp ∧ m'.state.frames = m.state.frames ∧
      ∀ k < e.span, m'.state.slot? .frame (m'.state.bp + e.offset + k) =
        some (.defaultOf decl.ty) := by
  obtain ⟨draft', r, hty, hdeclared, hframe, hlaid, -, hinline⟩ := c.laid_of_declares hsize hr hd h
  obtain ⟨length, hadded, hslots, hdefaults, hlength⟩ :=
    slotCode_of_declared hty hn hnone hdeclared
  have hentry := hframe.entries (hadded ▸ draft.frame.get?_addLocal dr.name decl.ty length)
  cases he.symm.trans hentry
  have hr' := hinline hn
  subst hr'
  obtain ⟨m', hsteps, hpc', hbp, hframes, hcells⟩ :=
    c.slots_of_slotCode hsize hr hd (hslots.extend hframe) hdefaults hlaid himage hs hpc
  refine ⟨m', hsteps, hpc', hbp, hframes, ?_⟩
  intro k hk
  have hk' : k < length.getD 1 := hk
  -- the code has just pushed the slots from `draft.frame.next` on
  refine State.slot?_frame_eq_some.mpr ⟨m'.state.bp + (draft.frame.next + k), by push_cast; ring, ?_⟩
  refine hcells _ _ hentry (draft.frame.next + k) ⟨by push_cast; omega, ?_⟩ (by omega) (by omega)
  simp only [FrameEntry.span]
  push_cast
  omega

/-- Below the top level, the declaration of a variable without initializer writes the default value
into its slot. -/
theorem fresh_of_nested (hsize : image.Addressable) (hr : d.routine entry ∈ c.setting.routines)
    (hd : d ∈ c.definitions) (h : d.Declares entry o decl dr draft addr code)
    (hn : o.site.nested = true) (hscalar : decl.isArray = false) (hnone : dr.initializer = none)
    {e : FrameEntry}
    (he : (d.routine entry).frame.entries.get? (draft.frame.freshKey dr.name) = some e)
    (himage : m.image = image) (hs : c.setting.Steady m.state) (hpc : m.state.pc = addr) :
    ∃ m', Machine.Steps code.size m m' ∧ m'.state.pc = addr + code.size ∧
      m'.state.bp = m.state.bp ∧ m'.state.frames = m.state.frames ∧
      ∀ k < e.span, m'.state.slot? .frame (m'.state.bp + e.offset + k) =
        some (.defaultOf decl.ty) := by
  obtain ⟨draft', r, hty, hdeclared, hframe, hlaid, hnested, -⟩ := c.laid_of_declares hsize hr hd h
  obtain ⟨hadded, rfl⟩ := storeCode_of_declared hn hscalar hnone hdeclared
  have hentry := hframe.entries (hadded ▸ draft.frame.get?_addLocal dr.name decl.ty none)
  cases he.symm.trans hentry
  have hnext : draft.frame.next < r := by
    have hle := hnested hn
    rw [hadded] at hle
    exact hle
  -- the slot is reserved, so it holds a value of the type already
  have hat := hlaid.start
  rw [← hpc] at hat
  obtain ⟨frame, rest, -, hactive⟩ := c.active_of_steady hsize hs hr hat.holds
  have hpos : 0 < draft.frame.next := by
    rcases (c.compiled hd).frame_sound.placed hentry with ⟨-, -, hneg⟩ | ⟨hpos, -⟩
    · exact absurd hneg (by simp)
    · have hcast : (0 : Int) < draft.frame.next := hpos
      exact_mod_cast hcast
  obtain ⟨ty, htype, key, e', hkey, hcovers, hety⟩ :=
    hactive.typed draft.frame.next hpos (by rw [hat.slots]; exact hnext)
  have hcovers' : FrameEntry.Covers ⟨draft.frame.next, decl.ty, none⟩ draft.frame.next :=
    ⟨le_rfl, by simp [FrameEntry.span]⟩
  obtain rfl := (c.compiled hd).frame_sound.separate hkey hentry hcovers hcovers'
  cases hkey.symm.trans hentry
  rw [State.stackTypes, Array.getElem?_map] at htype
  obtain ⟨old, hold, hold'⟩ := Option.map_eq_some_iff.mp htype
  have hdefault : (Value.defaultOf decl.ty).ty = decl.ty := Value.ty_defaultOf hty
  have hoffset : (d.routine entry).frame.offset? (draft.frame.freshKey dr.name) =
      some (draft.frame.next : Int) := by
    rw [FrameLayout.offset?, hentry]
    rfl
  have hstart : (newSlot draft dr).start? (d.routine entry).frame =
      some (.frame, (draft.frame.next : Int)) := by
    simp [newSlot, Slot.start?, hoffset]
  have hfinds : m.state.Finds (d.routine entry).frame (newSlot draft dr) none .frame
      (m.state.bp + draft.frame.next) old :=
    State.finds_of_region hstart (by push_cast; rfl) hold
  have hself : coerce old.ty (.defaultOf decl.ty) = .ok (.defaultOf decl.ty) := by
    have hcoerce := coerce_self (.defaultOf decl.ty)
    rw [hdefault] at hcoerce
    rw [hold', ← hety]
    exact hcoerce
  have hmov : Target.Reads (.mov ((newSlot draft dr).operand none) (.imm (.defaultOf decl.ty))) .mov
      (some ((newSlot draft dr).operand none)) (some (.imm (.defaultOf decl.ty))) := ⟨rfl, rfl, rfl⟩
  have hturns := turns_store hmov (settles_imm _) rfl hfinds hself
  have hplaced : Placed ⟨m.image.code, c.setting.program.labels⟩ (d.routine entry).frame
      m.state.pc (Code.located dr.loc (Code.ofInstrs
        [.mov ((newSlot draft dr).operand none) (.imm (.defaultOf decl.ty))])) := by
    rw [himage, hpc]
    exact hlaid.placed
  obtain ⟨m', hsteps, -, -, -, hm'⟩ := hturns.located σ m _ _ m.state.steps rfl hplaced
  have hbp : m'.state.bp = m.state.bp := by rw [hm']; rfl
  refine ⟨m', hsteps, ?_, hbp, by rw [hm']; rfl, ?_⟩
  · rw [hm', ← hpc]
    rfl
  intro k hk
  obtain rfl : k = 0 := Nat.lt_one_iff.mp hk
  refine State.slot?_frame_eq_some.mpr ⟨m.state.bp + draft.frame.next, ?_, ?_⟩
  · rw [hbp]
    push_cast
    ring
  · obtain ⟨hlt, -⟩ := Array.getElem?_eq_some_iff.mp hold
    rw [hm']
    exact Array.getElem?_setIfInBounds_self_of_lt hlt

/-- The variables below a statement of a body have default values when the statement starts. -/
theorem fresh_of_reserved (hsize : image.Addressable) (hr : d.routine entry ∈ c.setting.routines)
    (hd : d ∈ c.definitions) {pre post : List Stmt} {stmt : Stmt} {before here : Code}
    {draft' : Draft} (hbody : d.source.body = pre ++ stmt :: post)
    (hpre : lowerBody d.site pre d.start = .ok (before, draft))
    (hlower : lowerStmt d.site stmt draft = .ok (here, draft')) (himage : m.image = image)
    (hs : c.setting.Steady m.state) (hpc : m.state.pc = entry + before.size) :
    ∃ m', Machine.Steps draft'.reserved.size m m' ∧
      m'.state.pc = entry + before.size + draft'.reserved.size ∧
      m'.state.bp = m.state.bp ∧ m'.state.frames = m.state.frames ∧
      ∀ key e, (d.routine entry).frame.entries.get? key = some e → ∀ k : Nat, e.Covers k →
        draft.frame.next ≤ k → k < draft.frame.next + draft'.reserved.size →
        m'.state.stack[m'.state.bp + k]? = some (.defaultOf e.ty) := by
  have hfit := c.size_lt_of_routine hsize hr
  have hrun := (c.compiled hd).lowered
  rw [hbody] at hrun
  obtain ⟨after, hrest, hroot⟩ := (c.rooted hr hd).rest hfit rfl hpre hrun
  obtain ⟨here', draft₁, after', hhere', hafter', rfl⟩ := lowerBody_cons_eq_ok.mp hrest
  cases hlower.symm.trans hhere'
  obtain ⟨_, hgrows'⟩ := Setting.grows_of_lowerBody rfl rfl hafter'
  obtain ⟨slots, hgrows, hslots, hnone, -⟩ := Setting.grows_of_bodyStmt rfl hroot.empty hlower
  have hlaid := (laid_append.mp (laid_append.mp hroot.laid).1).1
  by_cases hdeferred : Deferred d.site stmt
  · rw [hslots hdeferred] at hlaid ⊢
    exact c.slots_of_slotCode hsize hr hd
      (hgrows.slots.extend (hgrows'.frame.trans hroot.frame)) hgrows.defaults hlaid himage hs hpc
  · -- a declaration at the top level reserves its own slots, and there is nothing in front of it
    rw [hnone hdeferred] at hlaid ⊢
    have hempty : SlotCode (d.routine entry).frame draft.frame.next [] := trivial
    exact c.slots_of_slotCode hsize hr hd hempty (by simp [Code.instrs]) hlaid himage hs hpc

end Compiler.Compilation

/-- **Which declarations start fresh.** Whenever a running program comes to the declaration of a
local variable without initializer, in any call and in any pass of a loop, it runs through the
declaration, and then all slots of the variable hold the default value of its type; only the
declaration of an array below the top level of the body has no code. The variables below a statement
of the body get default values once in each call, when that statement starts. -/
theorem fresh_declarations {hosts : List HostDecl} {program : Program} {image : Image}
    (c : Compiler.Compilation hosts program image) (haddr : image.Addressable)
    {d : Compiler.Definition} (hd : d ∈ c.definitions) {f : CodeEntry}
    (hf : image.symbols.code.get? d.source.name = some f) :
    (∀ o decl dr draft addr code, d.Declares f.addr o decl dr draft addr code →
      dr.initializer = none →
      ∃ e, f.frame.get? (draft.frame.freshKey dr.name) = some e ∧ e.ty = decl.ty ∧
        e.span = decl.span dr ∧
        (o.site.nested = true → decl.isArray = true → code = []) ∧
        ((o.site.nested = true → decl.isArray = false) →
          ∀ {σ : Type} {m₀ m : Machine σ} {n : Nat}, m₀.Starts image → Machine.Steps n m₀ m →
            m.state.pc = addr →
            ∃ m', Machine.Steps code.size m m' ∧ m'.state.pc = addr + code.size ∧
              m'.state.bp = m.state.bp ∧ m'.state.frames = m.state.frames ∧
              ∀ k < e.span, m'.state.slot? .frame (m'.state.bp + e.offset + k) =
                some (.defaultOf decl.ty))) ∧
    ∀ pre stmt post before draft here draft', d.source.body = pre ++ stmt :: post →
      Lowering.lowerBody d.site pre d.start = .ok (before, draft) →
      Lowering.lowerStmt d.site stmt draft = .ok (here, draft') →
      ∀ {σ : Type} {m₀ m : Machine σ} {n : Nat}, m₀.Starts image → Machine.Steps n m₀ m →
        m.state.pc = f.addr + before.size →
        ∃ m', Machine.Steps draft'.reserved.size m m' ∧
          m'.state.pc = f.addr + before.size + draft'.reserved.size ∧
          m'.state.bp = m.state.bp ∧ m'.state.frames = m.state.frames ∧
          ∀ key e, f.frame.get? key = some e → ∀ k : Nat, e.Covers k → draft.frame.next ≤ k →
            k < draft.frame.next + draft'.reserved.size →
            m'.state.stack[m'.state.bp + k]? = some (.defaultOf e.ty) := by
  obtain ⟨hentry, hr⟩ := c.routine_of_get? hd hf
  have hframe : f.frame = (d.routine f.addr).frame.entries := by
    rw [hentry]
    rfl
  rw [hframe]
  refine ⟨?_, ?_⟩
  · intro o decl dr draft addr code h hnone
    obtain ⟨draft', r, hty, hdeclared, hext, hlaid, -⟩ := c.laid_of_declares haddr hr hd h
    obtain ⟨e, he, hety, hspan⟩ := Lowering.entry_of_declared hdeclared
    have he' := hext.entries he
    refine ⟨e, he', hety, hspan, ?_, ?_⟩
    · intro hnested harray
      cases hdeclared with
      | array => rw [hnested, if_pos rfl]
      | scalar hscalar => exact absurd (hscalar.symm.trans harray) Bool.false_ne_true
    · intro hkind σ m₀ m n hstart hrun hpc
      obtain ⟨himage, hs⟩ := c.steady_of_steps haddr hstart hrun
      -- below the top level the slot is stored into, at the top level it is made here
      by_cases hnested : o.site.nested = true
      · exact c.fresh_of_nested haddr hr hd h hnested (hkind hnested) hnone he' himage hs hpc
      · exact c.fresh_of_inline haddr hr hd h (by simpa using hnested) hnone he' himage hs hpc
  · intro pre stmt post before draft here draft' hbody hpre hlower σ m₀ m n hstart hrun hpc
    obtain ⟨himage, hs⟩ := c.steady_of_steps haddr hstart hrun
    exact c.fresh_of_reserved haddr hr hd hbody hpre hlower himage hs hpc

/-- Every definition is that of a function of the program. -/
theorem Compiler.Translated.source_mem {p p' : Progress} {stmts : List Stmt} {ds : List Definition}
    (h : Translated p stmts p' ds) {d : Definition} (hd : d ∈ ds) :
    ∃ s ∈ stmts, s.function? = some d.source := by
  induction h with
  | nil => cases hd
  | declare _ _ ih =>
    obtain ⟨s, hs, hsource⟩ := ih hd
    exact ⟨s, List.mem_cons_of_mem _ hs, hsource⟩
  | function hf _ _ _ _ ih =>
    rcases List.mem_cons.mp hd with rfl | hd
    · exact ⟨_, List.mem_cons_self, hf⟩
    · obtain ⟨s, hs, hsource⟩ := ih hd
      exact ⟨s, List.mem_cons_of_mem _ hs, hsource⟩

/-- A program with an array at the top level of its function. -/
def twoCells : Program := ⟨[Build.func "main" [] .void [Build.array .int "a" 2]]⟩

/-- The program comes to the declaration of its array and passes it, and both elements are zero. -/
theorem fresh_declarations_twoCells :
    ∃ (n k : Nat) (m m' : Machine Unit) (offset : Int),
      Machine.Steps n (.load (imageOf [] twoCells) ()) m ∧ m.state.pc = 2 ∧ Machine.Steps k m m' ∧
      ∀ j : Nat, j < 2 → m'.state.slot? .frame (m'.state.bp + offset + j) = some (.int 0) := by
  have hcompile : compile [] twoCells = .ok (imageOf [] twoCells) :=
    compile_eq_ok_imageOf (by decide +kernel)
  have haddr : (imageOf [] twoCells).Addressable := by
    unfold Image.Addressable
    decide +kernel
  have hmain : ((imageOf [] twoCells).symbols.code.get? "main").map CodeEntry.addr = some 2 := by
    decide +kernel
  have hpaused : ∃ m logs, Machine.Traced (.load (imageOf [] twoCells) ()) m logs ∧
      m.state.pc = 2 := Machine.exists_traced 1 (by decide +kernel)
  obtain ⟨m, logs, hrun, hpc⟩ := hpaused
  obtain ⟨n, hn⟩ := hrun.steps
  obtain ⟨c, -⟩ := Compiler.exists_compilation hcompile
  obtain ⟨f, hf, hf₂⟩ := Option.map_eq_some_iff.mp hmain
  obtain ⟨d, hd, hname, -⟩ := c.routine_of_mem_entries (Table.get?_eq_some_iff.mp hf)
  rw [← hname] at hf
  obtain ⟨s, hs, hsource⟩ := c.translated.source_mem hd
  cases List.mem_singleton.mp hs
  have hbody : d.source.body = [] ++ Build.array .int "a" 2 :: [] :=
    congrArg Function.body (Option.some.inj hsource).symm
  have hlowered := (c.compiled hd).lowered
  rw [hbody] at hlowered
  obtain ⟨here, draft, after, hhere, -, -⟩ := Lowering.lowerBody_cons_eq_ok.mp hlowered
  -- nothing is reserved in front of a declaration at the top level
  have hinline : ¬ Lowering.Deferred d.site (Build.array .int "a" 2) := by
    rintro (hnested | hne)
    · cases hnested
    · exact hne _ rfl
  obtain ⟨_, -, -, hnone, -⟩ :=
    Setting.grows_of_bodyStmt rfl (c.compiled hd).start_reserved hhere
  obtain ⟨code, -, hlower⟩ := Lowering.loweredStmt_of_lowerStmt hhere
  cases hlower with
  | declare hty hdecl =>
    have hdeclares : d.Declares f.addr ⟨d.site, d.start, Build.array .int "a" 2,
        f.addr + Code.size [] + draft.reserved.size⟩ _ ⟨"a", none, some 2, .unknown⟩ d.start 2 code :=
      ⟨.body hbody rfl hhere, rfl, [], [], [], draft, rfl, rfl, hdecl, by
        rw [hnone hinline, hf₂]; rfl⟩
    obtain ⟨e, -, -, hspan, -, hfresh⟩ :=
      (fresh_declarations c haddr hd hf).1 _ _ _ _ _ _ hdeclares rfl
    obtain ⟨m', hsteps, -, -, -, hcells⟩ := hfresh (fun h => by cases h) ⟨rfl, rfl⟩ hn hpc
    exact ⟨n, _, m, m', e.offset, hn, hpc, hsteps, fun j hj => hcells j (hspan ▸ hj)⟩

/-- A program with an array in the body of a loop, which prints its element and then assigns it. -/
def arrayInLoop : Program :=
  ⟨[Build.func "main" [] .void
    [Build.forLoop (some (Build.var .int "i" (some (Build.lit (.int 0)))))
      (some (Build.binary .lt (Build.ident "i") (Build.lit (.int 2))))
      (some (Build.suffixed .inc (Build.ident "i")))
      (Build.block [Build.array .int "a" 1,
        Build.expr (Build.call "println" [Build.member "a" (Build.lit (.int 0))]),
        Build.expr (Build.assign (Build.member "a" (Build.lit (.int 0))) (Build.lit (.int 5)))])]]⟩

/-- The program on a console that keeps what is printed. -/
def arrayInLoopMachine : Machine (List Value) :=
  (Machine.load (imageOf builtins arrayInLoop) []).register "println" fun args w =>
    (.int 0, w ++ args)

/-- In the second pass, the array has the value that it had at the end of the first one. -/
theorem array_in_loop_keeps_values :
    compile builtins arrayInLoop = .ok (imageOf builtins arrayInLoop) ∧
      ∃ n m, Machine.Steps n arrayInLoopMachine m ∧ m.world = [.int 0, .int 5] := by
  refine ⟨compile_eq_ok_imageOf (by decide +kernel), ?_⟩
  have hpaused : (Machine.runWhile (fun _ => true) 58 arrayInLoopMachine).2 = none ∧
      (Machine.runWhile (fun _ => true) 58 arrayInLoopMachine).1.world = [.int 0, .int 5] := by
    decide +kernel
  obtain ⟨n, hn⟩ := Machine.steps_of_runWhile hpaused.1
  exact ⟨n, _, hn, hpaused.2⟩

end Stepwise
