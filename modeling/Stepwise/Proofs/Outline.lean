import Mathlib
import Stepwise.Proofs.Layout

/-!
# Outlines of functions

The outline of a function is what its text says about names: where scopes begin and end, and where
names are declared, in the order of the text. What a name means at a place is a matter of the
outline up to this place alone. A declaration is visible as long as its scope has not been left, and
a name means the visible declaration in the innermost scope. Also the slots of a declaration in the
frame of the function are told by the outline before it.

## Main definitions

* `Mark`, `Outline`: scopes and declarations along the text
* `Outline.Visible`, `Outline.Selects`: lexical scoping
* `Binding.offset`: the first slot of a declaration
* `Stmt.outline`, `Function.outline`: outlines of programs

## Main results

* `Outline.selects_of_find?`: going through the open scopes from the inside finds what a name means
* `Binding.offset_ne`: two declarations share no slot
-/

namespace Stepwise

/-- A declaration in a function: a parameter, or a variable with a number of slots. -/
inductive Binding where
  | param (name : String)
  | var (name : String) (span : Nat)
  deriving DecidableEq, Repr

namespace Binding

/-- The declared name. -/
def name : Binding → String
  | param name | var name _ => name

/-- The number of slots. -/
def span : Binding → Nat
  | param _ => 1
  | var _ span => span

end Binding

/-- What happens to names at a place of the text. -/
inductive Mark where
  /-- A scope begins. -/
  | enter
  /-- The innermost scope ends. -/
  | leave
  /-- A name is declared. -/
  | bind (b : Binding)
  deriving DecidableEq, Repr

/-- Scopes and declarations in the order of the text. -/
abbrev Outline := List Mark

/-! ## Slots -/

/-- The slots for parameters and for variables that a mark asks for. -/
def Mark.slots : Mark → Nat × Nat
  | .enter | .leave => (0, 0)
  | .bind (.param _) => (1, 0)
  | .bind (.var _ span) => (0, span)

namespace Outline

/-- The number of slots for parameters. -/
def params (o : Outline) : Nat := (o.map fun m => m.slots.1).sum

/-- The number of slots for variables. -/
def room (o : Outline) : Nat := (o.map fun m => m.slots.2).sum

@[simp]
theorem params_append (o o' : Outline) : params (o ++ o') = params o + params o' := by simp [params]

@[simp]
theorem room_append (o o' : Outline) : room (o ++ o') = room o + room o' := by simp [room]

@[simp]
theorem params_cons (m : Mark) (o : Outline) : params (m :: o) = m.slots.1 + params o := by
  simp [params]

@[simp]
theorem room_cons (m : Mark) (o : Outline) : room (m :: o) = m.slots.2 + room o := by simp [room]

@[simp]
theorem params_nil : params [] = 0 := rfl

@[simp]
theorem room_nil : room [] = 0 := rfl

end Outline

/-- The offset of the first slot of a declaration, from the outline before it. Parameters count down
from the slot below the link slot, variables count up from the slot above. -/
def Binding.offset (before : Outline) : Binding → Int
  | .param _ => -((before.params : Int) + 1)
  | .var _ _ => (1 + before.room : Nat)

/-- **Two declarations share no slot.** -/
theorem Binding.offset_ne {o mid : Outline} {b b' : Binding} {i j : Nat} (hi : i < b.span)
    (hj : j < b'.span) : b.offset o + i ≠ b'.offset (o ++ .bind b :: mid) + j := by
  cases b with
  | param name =>
    cases b' with
    | param name' =>
      simp only [span, offset, Outline.params_append, Outline.params_cons, Mark.slots] at hi hj ⊢
      omega
    | var name' n' =>
      simp only [span, offset] at hi hj ⊢
      omega
  | var name n =>
    cases b' with
    | param name' =>
      simp only [span, offset] at hi hj ⊢
      omega
    | var name' n' =>
      simp only [span, offset, Outline.room_append, Outline.room_cons, Mark.slots] at hi hj ⊢
      omega

/-! ## Lexical scoping -/

namespace Outline

/-- No scope ends that did not begin here. -/
def StaysInside (o : Outline) : Prop := ∀ p, p <+: o → p.count .leave ≤ p.count .enter

/-- How many scopes are open. -/
def depth (o : Outline) : Int := o.count .enter - o.count .leave

/-- A declaration, with the outline before it, is visible behind an outline: its scope is still
open. -/
def Visible (o before : Outline) (b : Binding) : Prop :=
  ∃ mid : Outline, o = before ++ .bind b :: mid ∧ mid.StaysInside

/-- A name means a declaration behind an outline: of the visible declarations of this name, it is
the one in the innermost scope. -/
def Selects (o : Outline) (name : String) (before : Outline) (b : Binding) : Prop :=
  b.name = name ∧ o.Visible before b ∧
    ∀ before' b', b'.name = name → o.Visible before' b' → before'.depth ≤ before.depth

/-- No scope has two declarations of one name. Between two declarations in one scope, as many scopes
end as begin. -/
def Distinct (o : Outline) : Prop :=
  ∀ (before mid after : Outline) b b', o = before ++ .bind b :: (mid ++ .bind b' :: after) →
    mid.StaysInside → mid.count .enter = mid.count .leave → b.name ≠ b'.name

theorem staysInside_nil : StaysInside [] := by
  intro p hp
  rw [List.prefix_nil.mp hp]
  rfl

variable {o before : Outline} {b : Binding}

theorem staysInside_concat {m : Mark} :
    StaysInside (o ++ [m]) ↔ o.StaysInside ∧ (o ++ [m]).count .leave ≤ (o ++ [m]).count .enter := by
  constructor
  · intro h
    exact ⟨fun p hp => h p (hp.trans (List.prefix_append _ _)), h _ List.prefix_rfl⟩
  · rintro ⟨h, hlast⟩ p hp
    rcases List.prefix_concat_iff.mp hp with rfl | hp
    · exact hlast
    · exact h p hp

/-! ## Open scopes -/

/-- The open scopes behind an outline, the innermost first, each with its declarations, the last
first. -/
abbrev Chain := List (List (Outline × Binding))

/-- The open scopes behind one mark more. -/
def advance (before : Outline) (scopes : Chain) : Mark → Chain
  | .enter => [] :: scopes
  | .leave => scopes.tail
  | .bind b => ((before, b) :: scopes.headD []) :: scopes.tail

/-- The open scopes behind an outline. -/
def chain (o : Outline) : Chain :=
  (o.foldl (fun p m => (p.1 ++ [m], advance p.1 p.2 m)) (([], [[]]) : Outline × Chain)).2

theorem chain_nil : chain [] = [[]] := rfl

theorem chain_concat (o : Outline) (m : Mark) : chain (o ++ [m]) = advance o (chain o) m := by
  have hfst : ∀ (o : Outline) (p : Outline × Chain),
      (o.foldl (fun p m => (p.1 ++ [m], advance p.1 p.2 m)) p).1 = p.1 ++ o := by
    intro o
    induction o with
    | nil => exact fun p => (List.append_nil _).symm
    | cons m o ih =>
      intro p
      rw [List.foldl_cons, ih, List.append_assoc]
      rfl
  rw [chain, List.foldl_append, List.foldl_cons, List.foldl_nil]
  simp only [hfst, List.nil_append]
  rfl

/-- The last mark of an outline is the declaration itself or comes behind it. -/
theorem exists_split_concat {m : Mark} {P : Outline → Prop} :
    (∃ mid, o ++ [m] = before ++ .bind b :: mid ∧ P mid) ↔
      (before = o ∧ m = .bind b ∧ P []) ∨ ∃ mid, o = before ++ .bind b :: mid ∧ P (mid ++ [m]) := by
  constructor
  · rintro ⟨mid, heq, hp⟩
    rcases List.eq_nil_or_concat' mid with rfl | ⟨mid, last, rfl⟩
    · obtain ⟨rfl, hm⟩ := List.append_inj' heq rfl
      cases hm
      exact .inl ⟨rfl, rfl, hp⟩
    · rw [← List.cons_append, ← List.append_assoc] at heq
      obtain ⟨rfl, hm⟩ := List.append_inj' heq rfl
      cases hm
      exact .inr ⟨mid, rfl, hp⟩
  · rintro (⟨rfl, rfl, hp⟩ | ⟨mid, rfl, hp⟩)
    · exact ⟨[], rfl, hp⟩
    · exact ⟨mid ++ [m], by simp, hp⟩

/-- **The open scopes hold the visible declarations**, each as far out as scopes have begun since. -/
theorem mem_chain_iff {k : Nat} :
    (∃ scope, (chain o)[k]? = some scope ∧ (before, b) ∈ scope) ↔
      ∃ mid : Outline, o = before ++ .bind b :: mid ∧ mid.StaysInside ∧
        mid.count .enter = mid.count .leave + k := by
  -- the last mark decides: it opens a scope, closes one, or adds to the innermost
  induction o using List.reverseRecOn generalizing k with
  | nil =>
    constructor
    · rintro ⟨scope, hscope, hmem⟩
      cases k with
      | zero =>
        cases hscope
        cases hmem
      | succ k => cases hscope
    · rintro ⟨mid, heq, -⟩
      exact absurd heq.symm (by simp)
  | append_singleton o m ih =>
    rw [chain_concat, exists_split_concat]
    simp only [staysInside_concat, List.count_append, List.count_singleton]
    cases m with
    | enter =>
      cases k with
      | zero =>
        constructor
        · rintro ⟨scope, hscope, hmem⟩
          cases hscope
          cases hmem
        · rintro (⟨-, hm, -⟩ | ⟨mid, -, ⟨hstays, -⟩, hcount⟩)
          · cases hm
          · have hle := hstays mid List.prefix_rfl
            simp at hcount
            omega
      | succ k =>
        rw [advance, List.getElem?_cons_succ, ih]
        constructor
        · rintro ⟨mid, heq, hstays, hcount⟩
          exact .inr ⟨mid, heq, ⟨hstays, by simp; omega⟩, by simp; omega⟩
        · rintro (⟨-, hm, -⟩ | ⟨mid, heq, ⟨hstays, -⟩, hcount⟩)
          · cases hm
          · exact ⟨mid, heq, hstays, by simp at hcount; omega⟩
    | leave =>
      rw [advance, ← List.drop_one, List.getElem?_drop, ih]
      constructor
      · rintro ⟨mid, heq, hstays, hcount⟩
        exact .inr ⟨mid, heq, ⟨hstays, by simp; omega⟩, by simp; omega⟩
      · rintro (⟨-, hm, -⟩ | ⟨mid, heq, ⟨hstays, -⟩, hcount⟩)
        · cases hm
        · exact ⟨mid, heq, hstays, by simp at hcount; omega⟩
    | bind b' =>
      -- a later declaration opens and closes nothing
      have hother : (∃ mid : Outline, o = before ++ .bind b :: mid ∧ mid.StaysInside ∧
            mid.count .enter = mid.count .leave + k) ↔
          ∃ mid : Outline, o = before ++ .bind b :: mid ∧ (mid.StaysInside ∧
            mid.count .leave + (if Mark.bind b' == .leave then 1 else 0) ≤
              mid.count .enter + (if Mark.bind b' == .enter then 1 else 0)) ∧
            mid.count .enter + (if Mark.bind b' == .enter then 1 else 0) =
              mid.count .leave + (if Mark.bind b' == .leave then 1 else 0) + k := by
        constructor
        · rintro ⟨mid, heq, hstays, hcount⟩
          exact ⟨mid, heq, ⟨hstays, by simp; omega⟩, by simp; omega⟩
        · rintro ⟨mid, heq, ⟨hstays, -⟩, hcount⟩
          exact ⟨mid, heq, hstays, by simp at hcount; omega⟩
      rw [← hother, ← ih, advance]
      cases k with
      | zero =>
        constructor
        · rintro ⟨scope, hscope, hmem⟩
          cases hscope
          rcases List.mem_cons.mp hmem with heq | hmem
          · cases heq
            exact .inl ⟨rfl, rfl, staysInside_nil, rfl⟩
          · cases hc : chain o with
            | nil =>
              rw [hc] at hmem
              cases hmem
            | cons scope rest =>
              rw [hc] at hmem
              exact .inr ⟨scope, rfl, hmem⟩
        · rintro (⟨rfl, hb, -⟩ | ⟨scope, hscope, hmem⟩)
          · cases hb
            exact ⟨_, rfl, List.mem_cons_self⟩
          · refine ⟨_, rfl, List.mem_cons_of_mem _ ?_⟩
            rw [List.headD_eq_head?_getD, List.head?_eq_getElem?, hscope]
            exact hmem
      | succ k =>
        rw [List.getElem?_cons_succ, ← List.drop_one, List.getElem?_drop, Nat.add_comm 1 k]
        constructor
        · exact .inr
        · rintro (⟨-, -, -, hcount⟩ | h)
          · cases hcount
          · exact h

/-- The declaration of a name that is found first, from the inside. -/
def find? (o : Outline) (name : String) : Option (Outline × Binding) :=
  (chain o).findSome? fun scope => scope.find? (·.2.name == name)

theorem visible_of_mem_chain {k : Nat} {scope : List (Outline × Binding)}
    (hk : (chain o)[k]? = some scope) (hb : (before, b) ∈ scope) :
    o.Visible before b ∧ o.depth = before.depth + k := by
  obtain ⟨mid, rfl, hstays, hcount⟩ := mem_chain_iff.mp ⟨scope, hk, hb⟩
  refine ⟨⟨mid, rfl, hstays⟩, ?_⟩
  simp only [depth, List.count_append, List.count_cons, reduceCtorEq, beq_iff_eq, if_false]
  push_cast
  omega

theorem exists_mem_chain_of_visible (h : o.Visible before b) :
    ∃ (k : Nat) (scope : List (Outline × Binding)), (chain o)[k]? = some scope ∧
      (before, b) ∈ scope := by
  obtain ⟨mid, rfl, hstays⟩ := h
  have hle := hstays mid List.prefix_rfl
  obtain ⟨k, hk⟩ := Nat.exists_eq_add_of_le hle
  exact ⟨k, mem_chain_iff.mpr ⟨mid, rfl, hstays, hk⟩⟩

/-- **Going outward through the open scopes finds the declaration that a name means.** -/
theorem selects_of_find? {name : String} (h : o.find? name = some (before, b)) :
    o.Selects name before b := by
  obtain ⟨inner, scope, outer, hchain, hfound, hnone⟩ := List.findSome?_eq_some_iff.mp h
  have hscope : (chain o)[inner.length]? = some scope := by rw [hchain]; simp
  obtain ⟨hvisible, hdepth⟩ := visible_of_mem_chain hscope (List.mem_of_find?_eq_some hfound)
  refine ⟨by simpa using List.find?_some hfound, hvisible, fun before' b' hname hb' => ?_⟩
  obtain ⟨k, scope', hk, hmem⟩ := exists_mem_chain_of_visible hb'
  obtain ⟨-, hdepth'⟩ := visible_of_mem_chain hk hmem
  -- further inside, no scope has the name
  have hle : inner.length ≤ k := by
    by_contra hlt
    rw [hchain, List.getElem?_append_left (by omega)] at hk
    have hin := hnone scope' (List.mem_of_getElem? hk)
    rw [List.find?_eq_none] at hin
    exact hin _ hmem (by simpa using hname)
  omega

theorem not_visible_of_find? {name : String} (h : o.find? name = none) (hb : b.name = name) :
    ¬o.Visible before b := by
  intro hvisible
  obtain ⟨k, scope, hk, hmem⟩ := exists_mem_chain_of_visible hvisible
  have hin := List.findSome?_eq_none_iff.mp h scope (List.mem_of_getElem? hk)
  rw [List.find?_eq_none] at hin
  exact hin _ hmem (by simpa using hb)

/-- Scopes that never have a name twice make an outline without repetition. -/
theorem distinct_of_nodup
    (h : ∀ p, p <+: o → ∀ scope ∈ chain p, (scope.map fun x => x.2.name).Nodup) : o.Distinct := by
  rintro before mid after b b' rfl hstays hcount heq
  -- behind the second declaration, both are in the innermost scope
  have hprefix : before ++ .bind b :: (mid ++ [.bind b']) <+:
      before ++ .bind b :: (mid ++ .bind b' :: after) := ⟨after, by simp⟩
  have hsplit : before ++ .bind b :: (mid ++ [.bind b']) =
      (before ++ .bind b :: mid) ++ [.bind b'] := by simp
  obtain ⟨scope, hscope, hmem⟩ := (mem_chain_iff (k := 0)).mpr ⟨mid, rfl, hstays, hcount⟩
  have hnodup := h _ hprefix
  rw [hsplit, chain_concat, advance] at hnodup
  have hhead := hnodup _ List.mem_cons_self
  rw [List.headD_eq_head?_getD, List.head?_eq_getElem?, hscope, Option.getD_some, List.map_cons,
    List.nodup_cons] at hhead
  exact hhead.1 (heq ▸ List.mem_map.mpr ⟨_, hmem, rfl⟩)

end Outline

/-! ## Programs -/

/-- The outline of declared variables. -/
def Declaration.outline (decl : Declaration) (drs : List Declarator) : Outline :=
  drs.map fun dr => .bind (.var dr.name (decl.span dr))

mutual

/-- The outline of a statement. Each branch and each body of a loop is a scope of its own. -/
def Stmt.outline : Stmt → Outline
  | .declare decl => decl.outline decl.declarators
  | .block body _ => .enter :: Stmt.outlineAll body ++ [.leave]
  | .branch _ consequent alternate _ =>
    .enter :: consequent.outline ++ .leave :: match alternate with
      | some s => .enter :: s.outline ++ [.leave]
      | none => []
  | .whileLoop _ body _ | .doLoop body _ _ => .enter :: body.outline ++ [.leave]
  | .forLoop init _ _ body _ =>
    .enter :: (match init with
      | some s => s.outline
      | none => []) ++ .enter :: body.outline ++ [.leave, .leave]
  | .function _ _ _ _ _ | .ret _ _ | .brk _ | .cont _ | .expr _ _ => []

/-- The outline of statements one after the other. -/
def Stmt.outlineAll : List Stmt → Outline
  | [] => []
  | s :: rest => s.outline ++ Stmt.outlineAll rest

end

/-- The outline of parameters. -/
def Function.paramOutline (f : Function) : Outline :=
  f.parameters.flatMap fun decl => decl.declarators.map fun dr => .bind (.param dr.name)

/-- The outline of a function: its parameters share a scope with the top level of its body. -/
def Function.outline (f : Function) : Outline := f.paramOutline ++ Stmt.outlineAll f.body

end Stepwise
