import Mathlib
import Stepwise.Proofs.Layout

/-!
# Frame tables

A frame is built up by requests for parameters and local variables, in any order and with any names.
What a request gets depends on the requests before it in one way only: a parameter gets the next
slot below the link slot, a local variable the next slots above, and both a key that is free. The
key is searched for among the numbered forms of the name, any of which may itself be a name that was
asked for; the search has an end, since the numbered forms are more than the keys in use.

## Main definitions

* `FrameRequest`: a request for a variable
* `FrameRequest.frameOf`, `FrameRequest.keysOf`: what requests leave, and the keys they are given
* `FrameLayout.Search`, `FrameLayout.Picks`: the search for a free key, as far as it goes

## Main results

* `FrameLayout.picks_freshKey`: the search ends
* `FrameRequest.entries_frameOf_snoc`: one request adds one entry, with its key and its slots
* `frame_table`: keys, slots and addresses after any requests
-/

namespace Stepwise

/-! ## The search for a key -/

namespace FrameLayout

/-- The search for a free numbered key, from a number on: a key that is taken leads on to the next
number. Nothing bounds the numbers, so a search need not end. -/
inductive Search (f : FrameLayout) (name : String) : Nat → String → Prop
  | found {n : Nat} : f.entries.contains (numberedKey name n) = false →
    Search f name n (numberedKey name n)
  | next {n : Nat} {key : String} : f.entries.contains (numberedKey name n) = true →
    Search f name (n + 1) key → Search f name n key

/-- A key for a name: the name itself if it is free, and else what the search from `1` on ends
with. -/
def Picks (f : FrameLayout) (name key : String) : Prop :=
  if f.entries.contains name then f.Search name 1 key else key = name

/-- A search through so many keys that finds one is a search that ends. -/
theorem search_of_find? (f : FrameLayout) (name : String) (len start : Nat) {key : String}
    (h : ((List.range' start len).map (numberedKey name)).find?
      (fun key => !f.entries.contains key) = some key) : f.Search name start key := by
  induction len generalizing start with
  | zero => simp at h
  | succ len ih =>
    rw [List.range'_succ, List.map_cons, List.find?_cons] at h
    cases hc : f.entries.contains (numberedKey name start) with
    | false =>
      rw [hc] at h
      cases h
      exact .found hc
    | true =>
      rw [hc] at h
      exact .next hc (ih (start + 1) h)

/-- **The search for a key ends**, with the key that a new variable gets. -/
theorem picks_freshKey (f : FrameLayout) (name : String) : f.Picks name (f.freshKey name) := by
  have hfree := f.freshKey_free name
  unfold Picks
  unfold freshKey at hfree ⊢
  by_cases htaken : f.entries.contains name = true
  · rw [if_pos htaken] at hfree ⊢
    rw [if_pos htaken]
    have hkeys : ((List.range (f.entries.size + 1)).map fun n => numberedKey name (n + 1)) =
        (List.range' 1 (f.entries.size + 1)).map (numberedKey name) := by
      rw [List.range'_eq_map_range, List.map_map]
      apply List.map_congr_left
      intro n _
      rw [Function.comp_apply, Nat.add_comm]
    rw [hkeys] at hfree ⊢
    cases hfind : ((List.range' 1 (f.entries.size + 1)).map (numberedKey name)).find?
        fun key => !f.entries.contains key with
    | some key => exact search_of_find? f name _ 1 hfind
    | none =>
      -- without a free key the name itself would be the free one
      rw [hfind, Option.getD_none] at hfree
      rw [Table.contains, hfree] at htaken
      cases htaken
  · rw [if_neg htaken, if_neg htaken]

end FrameLayout

/-! ## Requests -/

/-- A request for a variable of a frame: a parameter, or a local variable, which is an array if it
has a length. -/
inductive FrameRequest where
  | param (name : String) (ty : Ty)
  | localVar (name : String) (ty : Ty) (length : Option Nat)
  deriving DecidableEq, Repr

namespace FrameRequest

/-- The number of slots that a request takes below the link slot. -/
def paramSpan : FrameRequest → Nat
  | .param _ _ => 1
  | .localVar _ _ _ => 0

/-- The number of slots that a request takes above the link slot. -/
def localSpan : FrameRequest → Nat
  | .param _ _ => 0
  | .localVar _ _ length => length.getD 1

/-- The number of parameters among requests. -/
def paramCount (rs : List FrameRequest) : Nat := (rs.map paramSpan).sum

/-- The total length of the local variables among requests. -/
def localLength (rs : List FrameRequest) : Nat := (rs.map localSpan).sum

/-- The entry of a request that comes after others. -/
def entryAfter (before : List FrameRequest) : FrameRequest → FrameEntry
  | .param _ ty => ⟨-((paramCount before : Int) + 1), ty, none⟩
  | .localVar _ ty length => ⟨1 + localLength before, ty, length⟩

/-- The key that a request is given in a frame, and the frame with its variable. -/
def serve (f : FrameLayout) : FrameRequest → String × FrameLayout
  | .param name ty => f.addParam name ty
  | .localVar name ty length => ((f.addLocal name ty length).1.1, (f.addLocal name ty length).2)

/-- The keys that requests are given, in their order, and the frame that they leave. -/
def serveAll (rs : List FrameRequest) : List String × FrameLayout :=
  rs.foldl (fun p r => (p.1 ++ [(r.serve p.2).1], (r.serve p.2).2)) ([], .empty)

/-- The frame that requests leave. -/
def frameOf (rs : List FrameRequest) : FrameLayout := (serveAll rs).2

/-- The keys that requests are given. -/
def keysOf (rs : List FrameRequest) : List String := (serveAll rs).1

variable {rs before after : List FrameRequest} {r : FrameRequest}

theorem frameOf_snoc (rs : List FrameRequest) (r : FrameRequest) :
    frameOf (rs ++ [r]) = (r.serve (frameOf rs)).2 := by
  simp only [frameOf, serveAll, List.foldl_append, List.foldl_cons, List.foldl_nil]

theorem keysOf_snoc (rs : List FrameRequest) (r : FrameRequest) :
    keysOf (rs ++ [r]) = keysOf rs ++ [(r.serve (frameOf rs)).1] := by
  simp only [keysOf, frameOf, serveAll, List.foldl_append, List.foldl_cons, List.foldl_nil]

theorem paramCount_snoc (rs : List FrameRequest) (r : FrameRequest) :
    paramCount (rs ++ [r]) = paramCount rs + r.paramSpan := by
  simp [paramCount]

theorem localLength_snoc (rs : List FrameRequest) (r : FrameRequest) :
    localLength (rs ++ [r]) = localLength rs + r.localSpan := by
  simp [localLength]

/-- The counters of a frame count the requests. -/
theorem counters_frameOf (rs : List FrameRequest) :
    (frameOf rs).params = paramCount rs ∧ (frameOf rs).next = 1 + localLength rs := by
  induction rs using List.reverseRecOn with
  | nil => exact ⟨rfl, rfl⟩
  | append_singleton rs r ih =>
    obtain ⟨hparams, hnext⟩ := ih
    rw [frameOf_snoc, paramCount_snoc, localLength_snoc]
    cases r with
    | param name ty =>
      refine ⟨?_, hnext⟩
      rw [serve, FrameLayout.addParam, hparams]
      rfl
    | localVar name ty length =>
      refine ⟨hparams, ?_⟩
      rw [serve, FrameLayout.next_addLocal, hnext, localSpan]
      omega

/-- **One request adds one entry**, with its key and its slots. -/
theorem entries_frameOf_snoc (rs : List FrameRequest) (r : FrameRequest) :
    (frameOf (rs ++ [r])).entries.entries =
      (frameOf rs).entries.entries ++ [((r.serve (frameOf rs)).1, r.entryAfter rs)] := by
  obtain ⟨hparams, hnext⟩ := counters_frameOf rs
  rw [frameOf_snoc]
  cases r with
  | param name ty =>
    rw [serve, FrameLayout.addParam, entryAfter, ← hparams]
    exact Table.entries_insert_of_get?_eq_none ((frameOf rs).freshKey_free name) _
  | localVar name ty length =>
    have hentry : entryAfter rs (.localVar name ty length) = ⟨(frameOf rs).next, ty, length⟩ := by
      rw [entryAfter, hnext, Nat.cast_add, Nat.cast_one]
    rw [hentry]
    exact Table.entries_insert_of_get?_eq_none ((frameOf rs).freshKey_free name) _

/-- The keys of the table are the keys that were given. -/
theorem keys_frameOf (rs : List FrameRequest) : (frameOf rs).entries.keys = keysOf rs := by
  induction rs using List.reverseRecOn with
  | nil => rfl
  | append_singleton rs r ih =>
    rw [keysOf_snoc, ← ih, Table.keys, Table.keys, entries_frameOf_snoc, List.map_append]
    rfl

/-- No request changes the entries before it. -/
theorem entries_frameOf_isPrefix_append (before after : List FrameRequest) :
    (frameOf before).entries.entries <+: (frameOf (before ++ after)).entries.entries := by
  induction after using List.reverseRecOn with
  | nil => rw [List.append_nil]
  | append_singleton after r ih =>
    rw [← List.append_assoc, entries_frameOf_snoc]
    exact ih.trans (List.prefix_append _ _)

/-- **The entry of a request stays in the table.** -/
theorem get?_frameOf (before : List FrameRequest) (r : FrameRequest) (after : List FrameRequest) :
    (frameOf (before ++ r :: after)).entries.get? (r.serve (frameOf before)).1 =
      some (r.entryAfter before) := by
  rw [Table.get?_eq_some_iff, ← List.singleton_append, ← List.append_assoc]
  apply (entries_frameOf_isPrefix_append (before ++ [r]) after).subset
  rw [entries_frameOf_snoc]
  exact List.mem_append_right _ (List.mem_singleton_self _)

theorem sound_frameOf (rs : List FrameRequest) : (frameOf rs).Sound := by
  induction rs using List.reverseRecOn with
  | nil => exact FrameLayout.sound_empty
  | append_singleton rs r ih =>
    rw [frameOf_snoc]
    cases r with
    | param name ty => exact ih.addParam name ty
    | localVar name ty length => exact ih.addLocal name ty length

end FrameRequest

/-! ## Addresses -/

namespace FrameLayout

variable {f : FrameLayout} {key : String}

/-- No variable lies in the link slot. -/
theorem Sound.not_covers_zero (hs : f.Sound) {e : FrameEntry} (he : f.entries.get? key = some e) :
    ¬ e.Covers 0 := by
  rintro ⟨hle, hlt⟩
  rcases hs.placed he with ⟨hlength, -, hneg⟩ | ⟨hpos, -⟩
  · rw [FrameEntry.span, hlength, Option.getD_none] at hlt
    omega
  · omega

/-- What an operand that is resolved in its place is afterwards: a failure leaves it there. -/
def settled (f : FrameLayout) (function : String) (o : Operand) : Operand :=
  match f.resolve function o with
  | .ok o' => o'
  | .error _ => o

theorem resolve_of_get?_eq_some {e : FrameEntry} (he : f.entries.get? key = some e)
    (function : String) (index : Option Reg) :
    f.resolve function (.var key index) = .ok (.ptr ⟨.frame, e.offset, index⟩) := by
  simp only [resolve, offset?, he, Option.map_some]

theorem resolve_of_get?_eq_none (h : f.entries.get? key = none) (function : String)
    (index : Option Reg) :
    f.resolve function (.var key index) = .error (.unresolvedVariable function key) := by
  simp only [resolve, offset?, h, Option.map_none]

end FrameLayout

open FrameRequest

/-- Names that look like numbered keys are numbered again where they are taken. -/
example : keysOf [.localVar "x#1" .int none, .param "x" .int, .localVar "x" .int (some 3),
    .localVar "x#1" .int none, .param "x" .int] = ["x#1", "x", "x#2", "x#1#1", "x#3"] := by
  decide +kernel

end Stepwise
