import Mathlib
import Stepwise.Proofs.Layout
import Stepwise.Proofs.Placement

/-!
# The pieces of generated code

The code of an expression is put together from a few kinds of pieces: instructions that push, pop or
store one value, operators on the code of their parts, and calls. Many facts about generated code
are facts about the pieces that go over to whatever is made of them. The way from expressions to
pieces is gone once, here; such a fact then has one case for each kind of piece.

## Main definitions

* `Moves`: an instruction that pushes, pops or stores a value
* `Pieced`: code made of pieces, with the number of values on the stack before and after it
* `Expr.calls`: the names that an expression calls

## Main results

* `pieced_of_lower`, `pieced_of_lowerEffect`: the code of an expression is made of pieces
* `Pieced.draws`: it draws labels and scratch cells only
* `Pieced.le_size`: it has an instruction for each value that it leaves
-/

namespace Stepwise

/-! ## Calls of an expression -/

/-- The name that an expression is, if it is one. -/
def Expr.name? : Expr → Option String
  | .ident name _ => some name
  | _ => none

mutual

/-- The names that an expression calls. -/
def Expr.calls : Expr → List String
  | .literal _ _ | .ident _ _ => []
  | .binary _ left right _ => left.calls ++ right.calls
  | .unary _ argument _ _ => argument.calls
  | .assign left right _ => left.calls ++ right.calls
  | .call callee args _ => callee.name?.toList ++ callee.calls ++ Expr.callsAll args
  | .member base index _ => base.calls ++ index.calls

@[inherit_doc Expr.calls]
def Expr.callsAll : List Expr → List String
  | [] => []
  | e :: rest => e.calls ++ Expr.callsAll rest

end

theorem Expr.calls_subset_callsAll {args : List Expr} {a : Expr} (h : a ∈ args) :
    a.calls ⊆ Expr.callsAll args := by
  induction args with
  | nil => cases h
  | cons b rest ih =>
    rw [Expr.callsAll]
    rcases List.mem_cons.mp h with rfl | h
    · exact List.subset_append_left _ _
    · exact List.subset_append_of_subset_right _ (ih h)

end Stepwise

namespace Stepwise.Lowering

open Snippet

theorem Includes.calls_subset {e e' : Expr} (h : Includes e e') : e'.calls ⊆ e.calls := by
  intro name hname
  cases h with
  | passed harg => simp [Expr.calls, Expr.calls_subset_callsAll harg hname]
  | stepIndex he | placeIndex he =>
    subst he
    simp [Expr.calls, hname]
  | _ => simp [Expr.calls, hname]

/-! ## Pieces -/

/-- An operand that code may store into: a place, or the scratch cell that was asked for last. -/
inductive Storable (place : Operand → Prop) : Supply → Operand → Prop
  | place {s : Supply} {o : Operand} : place o → Storable place s o
  | cell {s : Supply} {ty : Ty} : Storable place (s.withCell ty) (cellOperand s.globals ty)

/-- An operand that code may read. Only operators read `R2`. -/
inductive Source (place : Operand → Prop) (s : Supply) : Operand → Prop
  | imm {v : Value} : Source place s (.imm v)
  | reg {x : Reg} : x ≠ .r2 → Source place s (.reg x)
  | stored {o : Operand} : Storable place s o → Source place s o

/-- An instruction that pushes, pops or stores a value or steps a place by one, with the number of
values on the stack before and after it. -/
inductive Moves (place : Operand → Prop) (s : Supply) : Nat → Instr → Nat → Prop
  | push {o : Operand} {m : Nat} : Source place s o → Moves place s m (.push o) (m + 1)
  | pop {x : Reg} {m : Nat} : x ≠ .r2 → Moves place s (m + 1) (.pop (.reg x)) m
  | mov {o o' : Operand} {m : Nat} (comment : Option String) : Storable place s o →
    Source place s o' → Moves place s m { Instr.mov o o' with comment := comment } m
  | step {o : Operand} {m : Nat} (op : UnaryOp) : Storable place s o →
    Moves place s m (.unary (stepCode op) o) m

/-- Code made of pieces that names places and calls functions of given kinds. It takes a stack with
`m` values to one with `n`, and its supply is `s` before and `s'` after it. -/
inductive Pieced (fn : String) (place : Operand → Prop) (called : String → Signature → Nat → Prop) :
    Nat → Supply → Code → Nat → Supply → Prop
  | nil {m : Nat} {s : Supply} : Pieced fn place called m s [] m s
  | instr {m k n : Nat} {s s' : Supply} {i : Instr} {c : Code} : Moves place s m i k →
    Pieced fn place called k s c n s' → Pieced fn place called m s (.instr i :: c) n s'
  | append {m k n : Nat} {s s₁ s' : Supply} {c d : Code} : Pieced fn place called m s c k s₁ →
    Pieced fn place called k s₁ d n s' → Pieced fn place called m s (c ++ d) n s'
  | located {m n : Nat} {s s' : Supply} {c : Code} (loc : Location) :
    Pieced fn place called m s c n s' → Pieced fn place called m s (Code.located loc c) n s'
  | cell {m n : Nat} {s s' : Supply} {c : Code} {ty : Ty} : ty ≠ .void →
    Pieced fn place called m (s.withCell ty) c n s' → Pieced fn place called m s c n s'
  | unary {m : Nat} {s s' : Supply} {c : Code} (op : UnaryOp) :
    Pieced fn place called m s c (m + 1) s' →
    Pieced fn place called m s (unaryCode op c) (m + 1) s'
  | binary {m : Nat} {s s₁ s' : Supply} {c d : Code} {op : BinaryOp} : isLogical op = false →
    Pieced fn place called m s c (m + 1) s₁ → Pieced fn place called (m + 1) s₁ d (m + 2) s' →
    Pieced fn place called m s (binaryCode op c d) (m + 1) s'
  | and {m : Nat} {s s₁ s' : Supply} {c d : Code} : Pieced fn place called m s c (m + 1) s₁ →
    Pieced fn place called m s₁ d (m + 1) s' →
    Pieced fn place called m s (andCode (truthLabels fn s'.labels) c d) (m + 1) (s'.withLabels 3)
  | or {m : Nat} {s s₁ s' : Supply} {c d : Code} : Pieced fn place called m s c (m + 1) s₁ →
    Pieced fn place called m s₁ d (m + 1) s' →
    Pieced fn place called m s
      (orCode (truthLabels fn s'.labels) (labelName fn "rhs" (s'.labels + 3)) c d) (m + 1)
      (s'.withLabels 4)
  | call {m argc : Nat} {s s' : Supply} {c : Code} {name : String} {f : Signature} :
    Pieced fn place called m s c (m + argc) s' → called name f argc →
    Pieced fn place called m s (c ++ callCode name f argc) m s'

variable {fn : String} {place : Operand → Prop} {called : String → Signature → Nat → Prop}
  {m n : Nat} {s s' : Supply} {c code : Code}

/-- Code made of pieces draws labels and scratch cells only. -/
theorem Pieced.draws (h : Pieced fn place called m s c n s') : Draws s s' := by
  induction h with
  | nil => exact .refl
  | append _ _ ih ih' | binary _ _ _ ih ih' => exact ih.trans ih'
  | cell hty _ ih => exact (Draws.refl.cell hty).trans ih
  | and _ _ ih ih' => exact (ih.trans ih').labels 3
  | or _ _ ih ih' => exact (ih.trans ih').labels 4
  | instr _ _ ih | located _ _ ih | unary _ _ ih | call _ _ ih => exact ih

/-- Code made of pieces has an instruction for each value that it leaves. -/
theorem Pieced.le_size (h : Pieced fn place called m s c n s') : n ≤ m + c.size := by
  induction h with
  | nil => exact le_rfl
  | instr hi _ ih =>
    rw [Code.size_cons_instr]
    cases hi <;> omega
  | append _ _ ih ih' =>
    rw [Code.size_append]
    omega
  | located _ _ ih => rwa [Code.size_located]
  | cell _ _ ih => exact ih
  | unary op _ ih =>
    unfold unaryCode
    rw [Code.size_append]
    omega
  | binary _ _ _ ih _ | and _ _ ih _ | or _ _ ih _ =>
    simp only [binaryCode, andCode, orCode, Code.size_append]
    omega
  | call => exact Nat.le_add_right _ _

/-! ## From expressions to pieces -/

/-- The variables in scope and the elements of arrays are places. -/
def Offers (place : Operand → Prop) (scope : Scope) : Prop :=
  ∀ ⦃name v⦄, scope.lookup? name = some (.variable v) →
    place (v.slot.operand none) ∧ place (v.slot.operand (some .ix))

/-- The functions in scope that have one of the names may be called. -/
def Permits (called : String → Signature → Nat → Prop) (scope : Scope) (names : List String) :
    Prop :=
  ∀ ⦃name f argc⦄, name ∈ names → scope.lookup? name = some (.function f) → Takes f argc →
    called name f argc

theorem Permits.mono {scope : Scope} {names names' : List String}
    (h : Permits called scope names) (hsub : names' ⊆ names) : Permits called scope names' :=
  fun _ _ _ hname => h (hsub hname)

/-- An action whose code is made of pieces and leaves one value. -/
def Pieces (fn : String) (place : Operand → Prop) (called : String → Signature → Nat → Prop)
    (x : Lower (Code × Ty)) : Prop :=
  ∀ ⦃s c ty s'⦄, x s = .ok ((c, ty), s') → ∀ m, Pieced fn place called m s c (m + 1) s'

section Expressions

variable {scope : Scope} {e left right : Expr} {dest : Operand} {ty : Ty}
  {lowered index rhs : Lower (Code × Ty)}

theorem Offers.scalarOperand (ho : Offers place scope) {name : String} {loc : Location}
    (h : Lowering.scalarOperand scope name loc = .ok (dest, ty)) : place dest := by
  obtain ⟨v, hv, -, rfl, -⟩ := scalarOperand_eq_ok h
  exact (ho hv).1

theorem Offers.arraySlot (ho : Offers place scope) {base : Expr} {slot : Slot}
    (h : Lowering.arraySlot scope base = .ok (slot, ty)) : place (slot.operand (some .ix)) := by
  obtain ⟨name, loc, v, -, hv, -, rfl, -⟩ := arraySlot_eq_ok h
  exact (ho hv).2

theorem pieced_popIndex :
    Pieced fn place called (m + 1) s (Code.ofInstrs [.pop ix]) m s := .instr (.pop nofun) .nil

theorem Stored.pieced (h : Stored scope dest ty lowered s e code s') (ho : Offers place scope)
    (hd : place dest) (hl : Pieces fn place called lowered) (m : Nat) :
    Pieced fn place called m s code m s' := by
  cases h with
  | literal => exact .instr (.mov none (.place hd) .imm) .nil
  | ident hsrc _ =>
    exact .instr (.mov none (.place hd) (.stored (.place (ho.scalarOperand hsrc)))) .nil
  | computed _ hr _ =>
    exact (hl hr m).append
      (.instr (.pop nofun) (.instr (.mov none (.place hd) (.reg nofun)) .nil))

theorem Valued.pieced (h : Valued ty lowered s e code s') (hl : Pieces fn place called lowered)
    (m : Nat) : Pieced fn place called m s code (m + 1) s' := by
  cases h with
  | literal => exact .located _ (.instr (.push .imm) .nil)
  | same hr _ => exact hl hr m
  | converted hr ha _ =>
    exact (hl hr m).append (.cell (ne_void_of_assignable ha) (.instr (.pop nofun)
      (.instr (.mov (some _) .cell (.reg nofun)) (.instr (.push (.stored .cell)) .nil))))

/-- An assignment stores into a place. -/
theorem Assigned.pieced (h : Assigned scope right index rhs s left code dest ty s')
    (ho : Offers place scope)
    (hi : ∀ base i loc, left = .member base i loc → Pieces fn place called index)
    (hr : Pieces fn place called rhs) (m : Nat) :
    Pieced fn place called m s code m s' ∧ place dest := by
  cases h with
  | scalar hd hs => exact ⟨hs.pieced ho (ho.scalarOperand hd) hr m, ho.scalarOperand hd⟩
  | immediate ha hix _ _ hs =>
    have hd := ho.arraySlot ha
    exact ⟨((hi _ _ _ rfl hix m).append pieced_popIndex).append (hs.pieced ho hd hr m), hd⟩
  | computed ha hix _ _ hrhs _ =>
    have hd := ho.arraySlot ha
    exact ⟨((hi _ _ _ rfl hix m).append (hr hrhs (m + 1))).append (.instr (.pop nofun)
      (.instr (.pop nofun) (.instr (.mov none (.place hd) (.reg nofun)) .nil))), hd⟩

/-- A step by one changes a place. -/
theorem Stepped.pieced (h : Stepped scope index s e code dest ty s') (ho : Offers place scope)
    (hi : ∀ base i loc, e = .member base i loc → Pieces fn place called index) (m : Nat) :
    Pieced fn place called m s code m s' ∧ place dest := by
  cases h with
  | scalar hd => exact ⟨.nil, ho.scalarOperand hd⟩
  | element ha hix _ =>
    exact ⟨(hi _ _ _ rfl hix m).append pieced_popIndex, ho.arraySlot ha⟩

theorem pieced_changeCode (op : UnaryOp) (prefixed wantValue : Bool) (hd : place dest) :
    Pieced fn place called m s (changeCode op prefixed wantValue dest)
      (if wantValue then m + 1 else m) s := by
  have hstep (m : Nat) : Moves place s m (.unary (stepCode op) dest) m := .step op (.place hd)
  have hpush : Moves place s m (.push dest) (m + 1) := .push (.stored (.place hd))
  cases wantValue with
  | false => exact .instr (hstep m) .nil
  | true =>
    cases prefixed with
    | false => exact .instr hpush (.instr (hstep _) .nil)
    | true => exact .instr (hstep m) (.instr hpush .nil)

theorem Called.pieced {callee : Expr} {argc : Nat} {loweredArgs : List Ty → Lower Code}
    {wantValue : Bool} (h : Called scope callee argc loweredArgs s wantValue code ty s')
    (hp : Permits called scope callee.name?.toList)
    (ha : ∀ ⦃params s c s'⦄, loweredArgs params s = .ok (c, s') →
      Pieced fn place called m s c (m + argc) s') :
    Pieced fn place called m s code (if wantValue then m + 1 else m) s' := by
  have hcalled {name : String} {f : Signature} (hf : calleeSignature scope callee = .ok (name, f))
      (ht : Takes f argc) : called name f argc := by
    obtain ⟨loc, rfl, hlook⟩ := calleeSignature_eq_ok hf
    exact hp (List.mem_singleton_self _) hlook ht
  cases h with
  | effect hf ht hargs => exact (ha hargs).call (hcalled hf ht)
  | compiled hf ht hargs =>
    exact ((ha hargs).call (hcalled hf ht)).append (.instr (.push (.reg nofun)) .nil)
  | host hf ht hargs _ hret =>
    exact ((ha hargs).call (hcalled hf ht)).append (.cell hret
      (.instr (.mov (some _) .cell (.reg nofun)) (.instr (.push (.stored .cell)) .nil)))

theorem Passed.pieced {param : Option Ty} (h : Passed fn scope s e param code s')
    (hl : Pieces fn place called (lower fn scope e)) (m : Nat) :
    Pieced fn place called m s code (m + 1) s' := by
  cases h with
  | param hv => exact hv.pieced hl m
  | extra hx => exact hl hx m

theorem pieced_of_lowerArgs {args : List Expr} {params : List Ty}
    (ha : ∀ a ∈ args, Pieces fn place called (lower fn scope a))
    (h : lowerArgs fn scope args params s = .ok (code, s')) :
    Pieced fn place called m s code (m + args.length) s' := by
  induction args generalizing params code s' with
  | nil =>
    obtain ⟨rfl, rfl⟩ := lowerArgs_nil_eq_ok.mp h
    exact .nil
  | cons arg rest ih =>
    obtain ⟨after, s₁, here, hrest, hpass, rfl⟩ := passed_of_lowerArgs h
    obtain ⟨hfirst, hothers⟩ := List.forall_mem_cons.mp ha
    exact (ih hothers hrest).append (hpass.pieced hfirst _)

theorem pieces_lowerIndex
    (he : ∀ base i loc, e = .member base i loc → Pieces fn place called (lower fn scope i))
    (base i : Expr) (loc : Location) (hm : e = .member base i loc) :
    Pieces fn place called (lowerIndex fn scope e) := by
  subst hm
  exact he base i loc rfl

/-- **The code of an expression is made of pieces**, and it leaves one value. -/
theorem pieced_of_lower (ho : Offers place scope) (hp : Permits called scope e.calls) :
    Pieces fn place called (lower fn scope e) := by
  intro s code ty s' h
  refine lower_induct (fun _ hc ih hp m => .located _ ?_) h hp
  have hall {e'} (hpart : Includes _ e') : Pieces fn place called (lower fn scope e') :=
    fun _ _ _ _ hr => ih hpart hr (hp.mono hpart.calls_subset)
  cases hc with
  | literal => exact .instr (.push .imm) .nil
  | ident hsrc => exact .instr (.push (.stored (.place (ho.scalarOperand hsrc)))) .nil
  | member ha hi _ =>
    exact (hall .index hi m).append (.instr (.pop nofun)
      (.instr (.push (.stored (.place (ho.arraySlot ha)))) .nil))
  | binary hop hl hr _ => exact .binary hop (hall .left hl m) (hall .right hr (m + 1))
  | and hl hr _ => exact .and (hall .left hl m) (hall .right hr m)
  | or hl hr _ => exact .or (hall .left hl m) (hall .right hr m)
  | @step op _ prefixed _ _ _ _ _ _ _ hst _ =>
    obtain ⟨haddress, hd⟩ :=
      hst.pieced ho (pieces_lowerIndex fun _ _ _ he => hall (.stepIndex he)) m
    exact haddress.append (pieced_changeCode op prefixed true hd)
  | unary _ ha _ => exact .unary _ (hall .argument ha m)
  | assign ha =>
    obtain ⟨hcode, hd⟩ := ha.pieced ho (pieces_lowerIndex fun _ _ _ he => hall (.placeIndex he))
      (hall .assigned) m
    exact hcode.append (.instr (.push (.stored (.place hd))) .nil)
  | call hcall =>
    refine hcall.pieced (hp.mono ?_) fun _ _ _ _ => pieced_of_lowerArgs fun _ ha => hall (.passed ha)
    exact fun _ hname => by simp [Expr.calls, hname]

/-- **So is the code of an expression that is lowered for its effect**; it leaves nothing. -/
theorem pieced_of_lowerEffect (ho : Offers place scope) (hp : Permits called scope e.calls)
    (h : lowerEffect fn scope e s = .ok (code, s')) (m : Nat) :
    Pieced fn place called m s code m s' := by
  have hall {e e' : Expr} (hp : Permits called scope e.calls) (hpart : Includes e e') :
      Pieces fn place called (lower fn scope e') := pieced_of_lower ho (hp.mono hpart.calls_subset)
  cases effected_of_lowerEffect h with
  | assign ha =>
    exact (ha.pieced ho (pieces_lowerIndex fun _ _ _ he => hall hp (.placeIndex he))
      (hall hp .assigned) m).1
  | call hcall =>
    refine hcall.pieced (hp.mono ?_) fun _ _ _ _ =>
      pieced_of_lowerArgs fun _ ha => hall hp (.passed ha)
    exact fun _ hname => by simp [Expr.calls, hname]
  | @step op _ prefixed _ _ _ _ _ _ _ hst _ =>
    obtain ⟨haddress, hd⟩ :=
      hst.pieced ho (pieces_lowerIndex fun _ _ _ he => hall hp (.stepIndex he)) m
    exact haddress.append (pieced_changeCode op prefixed false hd)
  | value _ hl => exact (pieced_of_lower ho hp hl m).append (.instr (.pop nofun) .nil)

end Expressions

theorem offers_any (scope : Scope) : Offers (fun _ => True) scope :=
  fun _ _ _ => ⟨trivial, trivial⟩

theorem permits_any (scope : Scope) (names : List String) :
    Permits (fun _ _ _ => True) scope names := fun _ _ _ _ _ _ => trivial

/-- The code of an expression is made of pieces, whatever it names and calls. -/
theorem pieces_lower (fn : String) (scope : Scope) (e : Expr) :
    Pieces fn (fun _ => True) (fun _ _ _ => True) (lower fn scope e) :=
  pieced_of_lower (offers_any scope) (permits_any scope _)

/-- **Lowering draws labels and scratch cells only.** -/
theorem draws_of_lower (fn : String) (scope : Scope) (e : Expr) : DrawsOnly (lower fn scope e) :=
  fun _ _ _ h => (pieces_lower fn scope e h 0).draws

theorem draws_of_lowerEffect (fn : String) (scope : Scope) (e : Expr) :
    DrawsOnly (lowerEffect fn scope e) := fun _ _ _ h =>
  (pieced_of_lowerEffect (offers_any scope) (permits_any scope _) h 0).draws

end Stepwise.Lowering
