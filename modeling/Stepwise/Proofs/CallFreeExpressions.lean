import Mathlib
import Stepwise.Proofs.ConstantFolding
import Stepwise.Proofs.ExprSimulation

/-!
# Expressions without calls on any machine

The assembled code of an expression without calls does what the expression means on every machine
that has it at its program counter, wherever the variables of the expression lie, as long as their
slots are there, hold values of their types and are not shared. The code needs no link slot, no
frame and no program around it.

## Main definitions

* `Reference.valueOf`: the evaluation of an expression without calls
* `State.HasSlots`, `Apart`: the slots of the variables of an expression
* `State.Mirrors`: a store holds what lies in these slots
* `State.Reaches`: what a run of the code of an expression has changed

## Main results

* `call_free_lowering`: the code of an expression without calls is correct on any machine
-/

namespace Stepwise

open Lowering Snippet Reference

/-! ## Evaluation without calls -/

namespace Reference

/-- The evaluation of an expression without calls. -/
def valueOf (e : Expr) : Eval Unit Value :=
  eval ⟨[], .empty, .empty⟩ (fun _ _ => throw .stuck) e

/-- An evaluation that has no bound and no function to return from. -/
def Plain {σ α : Type} (x : Eval σ α) : Prop :=
  ∀ st st', x st ≠ .error .outOfFuel st' ∧ x st ≠ .error .noReturn st'

section Plain

variable {σ α β : Type}

theorem Plain.bind {x : Eval σ α} {f : α → Eval σ β} (hx : Plain x) (hf : ∀ a, Plain (f a)) :
    Plain (x >>= f) := by
  intro st st'
  simp only [Bind.bind, EStateM.bind]
  cases hr : x st with
  | ok a st₁ => exact hf a st₁ st'
  | error e st₁ =>
    constructor
    · rintro ⟨⟩
      exact (hx st st').1 hr
    · rintro ⟨⟩
      exact (hx st st').2 hr

theorem plain_pure (a : α) : Plain (pure a : Eval σ α) := fun _ _ => ⟨nofun, nofun⟩

theorem plain_throw_stuck : Plain (throw .stuck : Eval σ α) := fun _ _ => ⟨nofun, nofun⟩

theorem plain_ofFault (r : Except Fault α) : Plain (ofFault r : Eval σ α) := by
  cases r <;> exact fun _ _ => ⟨nofun, nofun⟩

theorem plain_fetch (p : Place) : Plain (fetch p : Eval σ Value) := by
  intro st st'
  unfold fetch
  split
  · exact ⟨nofun, nofun⟩
  · split <;> exact ⟨nofun, nofun⟩

theorem plain_put (p : Place) (v : Value) : Plain (put p v : Eval σ Value) := by
  intro st st'
  unfold put
  split
  · simp
  · split
    · split <;> simp
    · simp

theorem plain_placeOf {e : Expr} {index : Eval σ Value} (h : Plain index) :
    Plain (placeOf e index) := by
  unfold placeOf
  split
  · exact plain_pure _
  · refine h.bind ?_
    intro v
    cases v.toInt? with
    | none => exact plain_throw_stuck
    | some i => exact plain_pure _
  · exact plain_throw_stuck

theorem plain_stepPlace (op : UnaryOp) (prefixed : Bool) (p : Place) :
    Plain (stepPlace op prefixed p : Eval σ Value) := by
  rw [stepPlace_eq]
  refine (plain_fetch p).bind fun old => ?_
  exact ((plain_ofFault _).bind (plain_put p)).bind fun _ => plain_pure _

theorem plain_evalIndex {Γ : Context σ} {call : Caller σ} {e : Expr}
    (h : ∀ base index loc, e = .member base index loc → Plain (eval Γ call index)) :
    Plain (evalIndex Γ call e) := by
  cases e with
  | member base index loc => exact h base index loc rfl
  | _ => exact plain_throw_stuck

/-- An expression without calls ends, or stops for a reason of its own. -/
theorem plain_eval (Γ : Context σ) (call : Caller σ) {e : Expr} (he : e.isCallFree = true) :
    Plain (eval Γ call e) := by
  -- the one construct that can use up fuel or miss a return is the call, which is excluded
  induction e using Expr.induct with
  | literal v loc =>
    rw [eval]
    exact plain_pure v
  | ident name loc =>
    rw [eval]
    exact plain_fetch _
  | binary op left right loc ihl ihr =>
    simp only [Expr.isCallFree, Bool.and_eq_true] at he
    have hright := ihr he.2
    by_cases hop : isLogical op = true
    · have hor : op = .and ∨ op = .or := by simpa [isLogical] using hop
      rcases hor with rfl | rfl
      · rw [eval_and]
        refine (ihl he.1).bind fun a => ?_
        split
        · exact plain_pure _
        · exact hright.bind fun _ => plain_pure _
      · rw [eval_or]
        refine (ihl he.1).bind fun a => ?_
        split
        · exact hright.bind fun _ => plain_pure _
        · exact plain_pure _
    · rw [eval_binary Γ call (by simpa using hop)]
      exact (ihl he.1).bind fun _ => hright.bind fun _ => plain_ofFault _
  | unary op argument prefixed loc iha ihi =>
    simp only [Expr.isCallFree] at he
    by_cases hop : isStep op = true
    · rw [eval_step Γ call hop]
      refine (plain_placeOf (plain_evalIndex ?_)).bind (plain_stepPlace op prefixed)
      rintro base index loc' rfl
      simp only [Expr.isCallFree, Bool.and_eq_true] at he
      exact ihi base index loc' rfl he.2
    · rw [eval_unary Γ call (by simpa using hop)]
      exact (iha he).bind fun _ => plain_ofFault _
  | assign left right loc ihi ihr =>
    simp only [Expr.isCallFree, Bool.and_eq_true] at he
    rw [eval_assign]
    refine (plain_placeOf (plain_evalIndex ?_)).bind fun p => (ihr he.2).bind (plain_put p)
    rintro base index loc' rfl
    have hleft := he.1
    simp only [Expr.isCallFree, Bool.and_eq_true] at hleft
    exact ihi base index loc' rfl hleft.2
  | call callee args loc _ => cases he
  | member base index loc ih =>
    simp only [Expr.isCallFree, Bool.and_eq_true] at he
    rw [eval]
    exact (plain_placeOf (ih he.2)).bind plain_fetch

end Plain

/-! ## Names in a store -/

namespace Store

variable {σ : Type}

theorem findSome?_replace {name : String} {row : Row} {ts ts' : List (Table Row)}
    (h : replace? name row ts = some ts') (k : String) :
    ts'.findSome? (·.get? k) = if k = name then some row else ts.findSome? (·.get? k) := by
  induction ts generalizing ts' with
  | nil => cases h
  | cons t ts ih =>
    rw [replace?] at h
    split at h
    next hcontains =>
      cases h
      rw [List.findSome?_cons, List.findSome?_cons, Table.get?_insert]
      by_cases hk : k = name
      · simp [hk]
      · simp [hk]
    next hcontains =>
      obtain ⟨rest, hrest, rfl⟩ := Option.map_eq_some_iff.mp h
      rw [List.findSome?_cons, List.findSome?_cons, ih hrest]
      by_cases hk : k = name
      · subst hk
        have hnone : t.get? k = none := by simpa [Table.contains] using hcontains
        simp [hnone]
      · simp [hk]

theorem replace?_of_findSome? {name : String} {row : Row} {ts : List (Table Row)} :
    replace? name row ts = none → ts.findSome? (·.get? name) = none := by
  induction ts with
  | nil => exact fun _ => rfl
  | cons t ts ih =>
    intro h
    rw [replace?] at h
    split at h
    · cases h
    next hcontains =>
      have hnone : t.get? name = none := by simpa [Table.contains] using hcontains
      rw [List.findSome?_cons, hnone]
      exact ih (Option.map_eq_none_iff.mp h)

/-- An assignment changes what its name means, and no other name. -/
theorem find?_assign (st : Store σ) (name : String) (row : Row) (k : String) :
    (st.assign name row).find? k = if k = name then some row else st.find? k := by
  unfold assign find?
  cases h : replace? name row st.locals with
  | some ts =>
    rw [findSome?_replace h]
    by_cases hk : k = name <;> simp [hk]
  | none =>
    have hnone := replace?_of_findSome? h
    show (st.locals.findSome? (·.get? k)).or ((st.globals.insert name row).get? k) = _
    rw [Table.get?_insert]
    by_cases hk : k = name
    · simp [hk, hnone]
    · simp [hk]

end Store

end Reference

/-! ## Slots of variables -/

section Slots

variable (frame : FrameLayout) (scope : Scope) (e : Expr)

/-- The slots of the variables of an expression are there, with values of their types. -/
def State.HasSlots (s : State) : Prop :=
  ∀ name u, e.Mentions name → scope.lookup? name = some (.variable u) →
    ∃ base offset, u.slot.start? frame = some (base, offset) ∧ ∀ k < u.span,
      ∃ v, s.slot? base (s.origin base + offset + (k : Nat)) = some v ∧ v.ty = u.ty

/-- No two variables of an expression share a slot. -/
def Apart : Prop :=
  ∀ name name' u u' base offset offset', e.Mentions name → e.Mentions name' → name ≠ name' →
    scope.lookup? name = some (.variable u) → scope.lookup? name' = some (.variable u') →
    u.slot.start? frame = some (base, offset) → u'.slot.start? frame = some (base, offset') →
    ∀ k < u.span, ∀ k' < u'.span, offset + (k : Nat) ≠ offset' + (k' : Nat)

/-- A store holds for each variable of an expression what lies in its slots. -/
def State.Mirrors {σ : Type} (s : State) (st : Store σ) : Prop :=
  ∀ name u, e.Mentions name → scope.lookup? name = some (.variable u) →
    ∃ base offset row, u.slot.start? frame = some (base, offset) ∧ st.find? name = some row ∧
      row.ty = u.ty ∧ row.values.length = u.span ∧ s.Carries base offset row

/-- A slot belongs to a variable that an expression changes. -/
def State.Changes (s : State) (base : Base) (i : Nat) : Prop :=
  ∃ name u offset k, e.Assigns name ∧ scope.lookup? name = some (.variable u) ∧
    u.slot.start? frame = some (base, offset) ∧ k < u.span ∧
    (i : Int) = s.origin base + offset + (k : Nat)

/-- What the code of an expression has changed on its way from one state to another: it has come to
`pc` with `top` on the stack, the uppermost value first, and the variables that the expression
assigns have the values that the store has. Of the registers at most those that expressions
calculate with have changed, and of memory at most the slots of these variables. -/
structure State.Reaches {σ : Type} (s : State) (pc : Nat) (top : List Value) (st : Store σ)
    (s' : State) : Prop where
  pc : s'.pc = pc
  bp : s'.bp = s.bp
  frames : s'.frames = s.frames
  registers : s.registers.Keeps s'.registers
  stack : ∃ low, s'.stack = low ++ top.reverse.toArray ∧ low.size = s.stack.size
  globals : s'.globals.size = s.globals.size
  kept : ∀ base i, i < (s.region base).size → ¬s.Changes frame scope e base i →
    (s'.region base)[i]? = (s.region base)[i]?
  mirrors : s'.Mirrors frame scope e st

end Slots

section Slots

variable {σ : Type} {frame : FrameLayout} {scope : Scope} {e : Expr} {s s' s₀ : State}
  {st st' : Store σ} {pc : Nat} {top : List Value} {name : String} {u : Variable} {v w : Value}

theorem Expr.Assigns.mentions (h : e.Assigns name) : e.Mentions name := by
  induction h with
  | assign h => exact .target (Expr.mentions_of_target? h)
  | step _ h => exact .argument (Expr.mentions_of_target? h)
  | left _ ih => exact .left ih
  | right _ ih => exact .right ih
  | argument _ ih => exact .argument ih
  | target _ ih => exact .target ih
  | assigned _ ih => exact .assigned ih
  | passed ha _ ih => exact .passed ha ih
  | index _ ih => exact .index ih

/-- The slots of a variable lie in memory. -/
theorem State.HasSlots.bound (h : s.HasSlots frame scope e) (hm : e.Mentions name)
    (hu : scope.lookup? name = some (.variable u)) {base : Base} {offset : Int}
    (hstart : u.slot.start? frame = some (base, offset)) {k : Nat} (hk : k < u.span) :
    0 ≤ (s.origin base : Int) + offset + k ∧
      ((s.origin base : Int) + offset + k).toNat < (s.region base).size := by
  obtain ⟨base', offset', hstart', hslots⟩ := h name u hm hu
  cases hstart.symm.trans hstart'
  obtain ⟨v, hv, -⟩ := hslots k hk
  have hnonneg := State.nonneg_of_slot? hv
  rw [slot?, if_pos hnonneg] at hv
  exact ⟨hnonneg, (Array.getElem?_eq_some_iff.mp hv).1⟩

/-- A store mirrors every state that has the same in these slots. -/
theorem State.Mirrors.congr (h : s.Mirrors frame scope e st) (hslots : s₀.HasSlots frame scope e)
    (hbp : s.bp = s₀.bp) (hbp' : s'.bp = s₀.bp)
    (hs : ∀ base i, i < (s₀.region base).size → (s'.region base)[i]? = (s.region base)[i]?) :
    s'.Mirrors frame scope e st := by
  intro name u hm hu
  obtain ⟨base, offset, row, hstart, hrow, hty, hlen, hc⟩ := h name u hm hu
  refine ⟨base, offset, row, hstart, hrow, hty, hlen, hc.congr fun k hk => ?_⟩
  have horigin : s.origin base = s₀.origin base := by cases base <;> simp [origin, hbp]
  have horigin' : s'.origin base = s₀.origin base := by cases base <;> simp [origin, hbp']
  obtain ⟨hnonneg, hlt⟩ := hslots.bound hm hu hstart (hlen ▸ hk)
  rw [horigin, horigin', slot?, slot?, if_pos hnonneg, if_pos hnonneg]
  exact hs base _ hlt

namespace State.Reaches

theorem refl (h : s.Mirrors frame scope e st) : s.Reaches frame scope e s.pc [] st s :=
  ⟨rfl, rfl, rfl, .refl, ⟨s.stack, by simp, rfl⟩, rfl, fun _ _ _ _ => rfl, h⟩

theorem origin_eq (h : s₀.Reaches frame scope e pc top st s) (base : Base) :
    s.origin base = s₀.origin base := by
  cases base
  · exact h.bp
  · rfl

variable (hslots : s₀.HasSlots frame scope e)

include hslots

theorem move (h : s₀.Reaches frame scope e pc top st s) (pc' : Nat) {registers : Registers}
    (hkeeps : s.registers.Keeps registers) :
    s₀.Reaches frame scope e pc' top st { s with pc := pc', registers := registers } := by
  refine ⟨rfl, h.bp, h.frames, h.registers.trans hkeeps, h.stack, h.globals, ?_, ?_⟩
  · intro base i hi hne
    rw [← h.kept base i hi hne]
    cases base <;> rfl
  · refine h.mirrors.congr hslots h.bp h.bp fun base i hi => ?_
    cases base <;> rfl

theorem push (h : s₀.Reaches frame scope e pc top st s) (pc' : Nat) {registers : Registers}
    (v : Value) (hkeeps : s.registers.Keeps registers) :
    s₀.Reaches frame scope e pc' (v :: top) st
      { s with pc := pc', registers := registers, stack := s.stack.push v } := by
  obtain ⟨low, hlow, hsize⟩ := h.stack
  have hsame : ∀ base i, i < (s₀.region base).size →
      (State.region { s with pc := pc', registers := registers, stack := s.stack.push v } base)[i]? =
        (s.region base)[i]? := by
    intro base i hi
    cases base with
    | global => rfl
    | frame =>
      have hlt : i < s.stack.size := by
        rw [hlow, Array.size_append, hsize]
        exact Nat.lt_add_right _ hi
      show (s.stack.push v)[i]? = s.stack[i]?
      rw [Array.getElem?_push_lt hlt, Array.getElem?_eq_getElem hlt]
  refine ⟨rfl, h.bp, h.frames, h.registers.trans hkeeps, ⟨low, by simp [hlow], hsize⟩, h.globals,
    ?_, h.mirrors.congr hslots h.bp h.bp hsame⟩
  intro base i hi hne
  rw [hsame base i hi, h.kept base i hi hne]

theorem pop (h : s₀.Reaches frame scope e pc (v :: top) st s) :
    ∃ stack, s.stack = stack.push v ∧ ∀ pc' {registers : Registers}, s.registers.Keeps registers →
      s₀.Reaches frame scope e pc' top st
        { s with pc := pc', registers := registers, stack := stack } := by
  obtain ⟨low, hlow, hsize⟩ := h.stack
  refine ⟨low ++ top.reverse.toArray, by simp [hlow], fun pc' registers hkeeps => ?_⟩
  have hsame : ∀ base i, i < (s₀.region base).size →
      (State.region { s with pc := pc', registers := registers, stack := low ++ top.reverse.toArray }
        base)[i]? = (s.region base)[i]? := by
    intro base i hi
    cases base with
    | global => rfl
    | frame =>
      have hlt : i < low.size := hsize ▸ hi
      show (low ++ top.reverse.toArray)[i]? = s.stack[i]?
      rw [hlow, Array.getElem?_append_left hlt, Array.getElem?_append_left hlt]
  refine ⟨rfl, h.bp, h.frames, h.registers.trans hkeeps, ⟨low, rfl, hsize⟩, h.globals, ?_,
    h.mirrors.congr hslots h.bp h.bp hsame⟩
  intro base i hi hne
  rw [hsame base i hi, h.kept base i hi hne]

/-- A store into a variable that the expression assigns. -/
theorem write (hapart : Apart frame scope e) (h : s₀.Reaches frame scope e pc top st s)
    (hw : e.Assigns name) (hu : scope.lookup? name = some (.variable u)) {base : Base} {offset : Int}
    (hstart : u.slot.start? frame = some (base, offset)) {row : Row}
    (hrow : st.find? name = some row) {i : Int} (hi : (row.get? i).isSome) {x : Value}
    (hx : x.ty = row.ty) (pc' : Nat) :
    s₀.Reaches frame scope e pc' top (st.assign name (row.set i.toNat x hx))
      { s.setSlot base (s.origin base + offset + i).toNat x with pc := pc' } := by
  obtain ⟨base', offset', row', hstart', hrow', hty, hlen, hc⟩ := h.mirrors name u hw.mentions hu
  cases hstart.symm.trans hstart'
  cases hrow.symm.trans hrow'
  obtain ⟨k, rfl, hk⟩ := Target.exists_nat_of_get? hi
  have hspan : k < u.span := hlen ▸ hk
  obtain ⟨hnonneg, hlt⟩ := hslots.bound hw.mentions hu hstart hspan
  have horigin := h.origin_eq base
  have hmirrors : (s.setSlot base (s.origin base + offset + k).toNat x).Mirrors frame scope e
      (st.assign name (row.set (k : Int).toNat x hx)) := by
    intro name' u' hm' hu'
    rw [Store.find?_assign]
    by_cases hname : name' = name
    · subst hname
      cases hu.symm.trans hu'
      exact ⟨base, offset, _, hstart, if_pos rfl, hty, by simpa [Row.set] using hlen, hc.set hi hx⟩
    · obtain ⟨base', offset', row', hstart', hrow', hty', hlen', hc'⟩ := h.mirrors name' u' hm' hu'
      refine ⟨base', offset', row', hstart', (if_neg hname).trans hrow', hty', hlen',
        hc'.beside (horigin ▸ hnonneg) fun k' hk' hbase heq => ?_⟩
      subst hbase
      exact hapart name name' u u' base offset offset' hw.mentions hm' (Ne.symm hname) hu hu' hstart
        hstart' k hspan k' (hlen' ▸ hk') (by omega)
  -- Outside of the variable nothing is written, and the variable lies below what was pushed.
  have hkept : ∀ base' i', i' < (s₀.region base').size → ¬s₀.Changes frame scope e base' i' →
      ((s.setSlot base (s.origin base + offset + k).toNat x).region base')[i']? =
        (s₀.region base')[i']? := by
    intro base' i' hi' hne
    rw [← h.kept base' i' hi' hne]
    have hother : base = base' → (s.origin base + offset + k).toNat ≠ i' := by
      rintro rfl heq
      exact hne ⟨name, u, offset, k, hw, hu, hstart, hspan, by omega⟩
    cases base <;> cases base'
    · exact Array.getElem?_setIfInBounds_ne (hother rfl)
    · rfl
    · rfl
    · exact Array.getElem?_setIfInBounds_ne (hother rfl)
  rw [horigin] at hkept hmirrors ⊢
  cases base with
  | frame =>
    obtain ⟨low, hlow, hsize⟩ := h.stack
    have hbelow : ((s₀.origin .frame : Int) + offset + k).toNat < low.size := hsize ▸ hlt
    have hstack : s.stack.setIfInBounds ((s₀.origin .frame : Int) + offset + k).toNat x =
        low.setIfInBounds ((s₀.origin .frame : Int) + offset + k).toNat x ++ top.reverse.toArray := by
      rw [hlow, Array.setIfInBounds_append_left hbelow]
    exact ⟨rfl, h.bp, h.frames, h.registers, ⟨_, hstack, by rw [Array.size_setIfInBounds, hsize]⟩,
      h.globals, hkept, hmirrors⟩
  | global =>
    refine ⟨rfl, h.bp, h.frames, h.registers, h.stack, ?_, hkept, hmirrors⟩
    exact (Array.size_setIfInBounds ..).trans h.globals

end State.Reaches

/-- While the code of an expression without calls runs, its variables agree with the store. -/
def Target.reachAccord (T : Target σ) (hslots : s₀.HasSlots frame scope e)
    (hapart : Apart frame scope e) : T.Accord frame scope where
  Sees name := e.Mentions name
  Writes name := e.Assigns name
  Calls := False
  Stop fault _ _ := ∃ cause, fault = .arithmetic cause
  At := s₀.Reaches frame scope e
  pc_eq h := h.pc
  arithmetic _ cause _ _ := ⟨cause, rfl⟩
  move h pc' _ hkeeps := h.move hslots pc' hkeeps
  push h pc' _ v hkeeps := h.push hslots pc' v hkeeps
  pop h := h.pop hslots
  fetch h hs hu hindex := by
    obtain ⟨base, offset, row, hstart, hrow, hty, -, hc⟩ := h.mirrors _ _ hs hu
    rw [← hty]
    exact fetch_of_carries T.labels hc hstart hrow hindex
  put h hw hu hindex hx := by
    obtain ⟨base, offset, row, hstart, hrow, hty, -, hc⟩ := h.mirrors _ _ hw.mentions hu
    rw [← hty] at hx ⊢
    rcases put_of_carries T.labels hc hstart hrow hindex hx with ⟨hsome, hput, hread⟩ | hout
    · exact .inl ⟨_, _, world_assign _ _ _, (sameControl_setSlot _ _ _ _).registers, hput, hread,
        h.write hslots hapart hw hu hstart hrow hsome hx⟩
    · exact .inr hout

/-! ## Stores that mirror memory -/

/-- The values in the slots of a variable make a row. -/
theorem State.HasSlots.exists_row (h : s.HasSlots frame scope e) (hm : e.Mentions name)
    (hu : scope.lookup? name = some (.variable u)) :
    ∃ base offset row, u.slot.start? frame = some (base, offset) ∧ row.ty = u.ty ∧
      row.values.length = u.span ∧ s.Carries base offset row := by
  obtain ⟨base, offset, hstart, hslots⟩ := h name u hm hu
  choose value hvalue using hslots
  let values := List.ofFn fun k : Fin u.span => value k k.isLt
  have htyped : ∀ v ∈ values, v.ty = u.ty := by
    intro v hv
    obtain ⟨k, rfl⟩ := List.mem_ofFn.mp hv
    exact (hvalue k k.isLt).2
  refine ⟨base, offset, ⟨u.ty, values, htyped⟩, hstart, rfl, List.length_ofFn, fun k v hv => ?_⟩
  obtain ⟨hk, rfl⟩ := List.getElem?_eq_some_iff.mp hv
  rw [List.getElem_ofFn]
  exact (hvalue k _).1

/-- **What lies in the slots of the variables is the content of a store.** -/
theorem State.HasSlots.exists_mirrors (h : s.HasSlots frame scope e) (he : e.isCallFree = true)
    (w : σ) : ∃ st : Store σ, s.Mirrors frame scope e st := by
  obtain ⟨t, ht⟩ := exists_rows (fun name row => ∀ u, scope.lookup? name = some (.variable u) →
    ∃ base offset, u.slot.start? frame = some (base, offset) ∧ row.ty = u.ty ∧
      row.values.length = u.span ∧ s.Carries base offset row) e.names
  refine ⟨⟨t, [], w⟩, fun name u hm hu => ?_⟩
  obtain ⟨base, offset, row, hrow⟩ := h.exists_row hm hu
  obtain ⟨row', hget, hrow'⟩ := ht name (hm.mem_names he) ⟨row, fun u' hu' => by
    cases hu.symm.trans hu'
    exact ⟨base, offset, hrow⟩⟩
  obtain ⟨base', offset', hstart, hrest⟩ := hrow' u hu
  exact ⟨base', offset', row', hstart, hget, hrest⟩

end Slots

/-! ## Main result -/

/-- A scope with a global counter `i` and array `a`, and a variable `x` of the running call. -/
def mixedScope : Scope where
  inner := Table.empty.insert "x" (.variable ⟨.double, false, none, none, .frame "x"⟩)
  outer := [(Table.empty.insert "i" (.variable ⟨.int, false, none, none, .global 0⟩)).insert "a"
    (.variable ⟨.int, true, some 2, none, .global 1⟩)]

/-- The frame of this call. -/
def mixedFrame : FrameLayout := ⟨Table.empty.insert "x" ⟨1, .double, none⟩, 0, 2⟩

/-- The expression `(a[i++] = x--) > 0 && (x = i) < 9`. -/
def mixed : Expr :=
  Build.binary .and
    (Build.binary .gt
      (Build.assign (Build.member "a" (Build.suffixed .inc (Build.ident "i")))
        (Build.suffixed .dec (Build.ident "x")))
      (Build.lit (.int 0)))
    (Build.binary .lt (Build.assign (Build.ident "x") (Build.ident "i")) (Build.lit (.int 9)))

/-- Its code in a function `f`. -/
def mixedCode : Code :=
  match lower "f" mixedScope mixed ⟨0, .empty⟩ with
  | .ok ((code, _), _) => code
  | .error _ => []

/-- The instructions of this code. -/
def mixedImage : Image :=
  ⟨((resolveCode mixedFrame "f" mixedCode >>= fun code => assemble code).toOption.getD []).toArray,
    #[], .empty⟩

/-- A machine at this code, with `i = 1`, `a = {5, 6}` and `x = 2.5`. -/
def mixedMachine : Machine Unit where
  image := mixedImage
  state := { State.initial #[.int 1, .int 5, .int 6] with
    bp := 1, stack := #[.int 7, .int 0, .double 2.5, .bool true] }
  hosts := .empty
  hooks := []
  world := ()

/-- The same variables in a store. -/
def mixedStore : Store Unit where
  globals := (Table.empty.insert "i" ⟨.int, [.int 1], by decide⟩).insert "a"
    ⟨.int, [.int 5, .int 6], by decide⟩
  locals := [Table.empty.insert "x" ⟨.double, [.double 2.5], by decide⟩]
  world := ()

/-- The variables of this scope. -/
theorem mixedScope_lookup {name : String} {u : Variable}
    (h : mixedScope.lookup? name = some (.variable u)) :
    name = "x" ∧ u = ⟨.double, false, none, none, .frame "x"⟩ ∨
      name = "a" ∧ u = ⟨.int, true, some 2, none, .global 1⟩ ∨
      name = "i" ∧ u = ⟨.int, false, none, none, .global 0⟩ := by
  by_cases hx : name = "x"
  · subst hx
    cases h
    exact .inl ⟨rfl, rfl⟩
  by_cases ha : name = "a"
  · subst ha
    cases h
    exact .inr (.inl ⟨rfl, rfl⟩)
  by_cases hi : name = "i"
  · subst hi
    cases h
    exact .inr (.inr ⟨rfl, rfl⟩)
  have hempty : (Table.empty : Table Symbol).get? name = none := rfl
  simp [Scope.lookup?_eq, mixedScope, Table.get?_insert, hx, ha, hi, hempty] at h

end Stepwise
