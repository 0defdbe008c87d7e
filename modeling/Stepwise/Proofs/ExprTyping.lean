import Mathlib
import Stepwise.Proofs.SnippetTyping

/-!
# The types of expressions

The code of an expression leaves a value of its static type on the stack, and each of its
instructions works with values of the types that it needs. This is read off the stages of the code,
so it holds of every run.

## Main definitions

* `TypedSetting.Faithful`: the source says of a linked program what is the case
* `Describes`: the names in scope have the types that the scope says
* `Poised`: the code of an expression at its stage
* `Settled`: an expression and all expressions inside it leave values of their types

## Main results

* `types_of_lower`, `keeps_of_lowerEffect`: expressions for their value and for their effect
-/

namespace Stepwise.TypedSetting

open Snippet Lowering

variable {S : TypedSetting} {f : Routine} {t : Stage} {addr limit : Nat} {scope : Scope}

/-! ## Names and their types -/

/-- What the source says of a program agrees with the program: variables and scratch cells have
their slots, functions their routines and host functions their declarations, and the expressions of
the statements of a function are known with all their parts. -/
structure Faithful (S : TypedSetting) : Prop where
  addressable : S.program.code.size < 2 ^ 63
  globals : S.globals.Sound S.names
  compiled : ∀ {name sig}, S.names.get? name = some (.function sig) → sig.external = false →
    sig.variadic = false ∧ ∃ g ∈ S.routines, S.program.labels.get? name = some g.entry ∧
      g.argc = sig.params.length ∧ (S.header g).params = sig.params ∧ (S.header g).ret = sig.ret
  host : ∀ {name sig}, S.names.get? name = some (.function sig) → sig.external = true →
    ∃ decl, S.hosts.get? name = some decl ∧ decl.params = sig.params ∧ decl.ret = sig.ret
  stmt : ∀ {f o needed x}, (S.header f).contains o → StmtExpr o needed x →
    (S.header f).lowers needed x
  part : ∀ {f needed x y}, (S.header f).lowers needed x → ExprPart x y → (S.header f).lowers true y
  dropped : ∀ {f x}, (S.header f).lowers false x → hasEffect x.expr = false →
    (S.header f).lowers true x

/-- The meaning of a name is as the layout says: a variable of the function has an entry in the
frame, which is that of a parameter or lies below `limit`, and all other names are those of the
program. -/
def Denotes (S : TypedSetting) (f : Routine) (limit : Nat) (name : String) : Symbol → Prop
  | .variable ⟨ty, isArray, _, _, .frame key⟩ =>
    ∃ e, f.frame.entries.get? key = some e ∧ e.ty = ty ∧
      ((isArray = false ∧ ∃ k : Nat, e.offset = -((k : Int) + 1) ∧
          (S.header f).params[k]? = some ty) ∨
        (0 < e.offset ∧ 0 < e.span ∧ e.offset + e.span ≤ limit))
  | symbol => S.names.get? name = some symbol

/-- Every name in scope has a meaning as the layout says. -/
def Describes (S : TypedSetting) (f : Routine) (limit : Nat) (scope : Scope) : Prop :=
  ∀ ⦃name symbol⦄, scope.lookup? name = some symbol → S.Denotes f limit name symbol

variable {name fn : String} {s s' : Supply} {e : Expr}

theorem Denotes.mono {limit' : Nat} {symbol : Symbol} (h : S.Denotes f limit name symbol)
    (hl : limit ≤ limit') : S.Denotes f limit' name symbol := by
  rcases symbol with ⟨ty, isArray, _, _, offset | key⟩ | sig
  · exact h
  · obtain ⟨e, he, hty, hp | ⟨hpos, hspan, hle⟩⟩ := h
    · exact ⟨e, he, hty, .inl hp⟩
    · exact ⟨e, he, hty, .inr ⟨hpos, hspan, by omega⟩⟩
  · exact h

theorem Describes.mono {limit' : Nat} (h : S.Describes f limit scope) (hl : limit ≤ limit') :
    S.Describes f limit' scope := fun _ _ hs => (h hs).mono hl

theorem Describes.function {sig : Signature} (h : S.Describes f limit scope)
    (hs : scope.lookup? name = some (.function sig)) : S.names.get? name = some (.function sig) :=
  h hs

/-- A variable that is used as a value is a place of its type. -/
theorem Describes.scalar (hS : S.Faithful) (h : S.Describes f limit scope) (hl : limit ≤ t.slots)
    {loc : Location} {o : Operand} {ty : Ty} (ho : scalarOperand scope name loc = .ok (o, ty)) :
    S.Place f t o ty := by
  obtain ⟨v, hv, harr, rfl, rfl⟩ := scalarOperand_eq_ok ho
  have hd := h hv
  rcases v with ⟨ty, isArray, length, value, offset | key⟩
  · obtain ⟨o, hslot, hspan, hblock⟩ := hS.globals.declared hd
    cases hslot
    obtain ⟨w, hw, hty⟩ := hblock 0 hspan
    rw [Nat.add_zero] at hw
    change w.ty = ty at hty
    rw [← hty]
    exact .global hw
  · obtain ⟨e, he, rfl, ⟨-, k, hk, hp⟩ | ⟨hpos, hspan, hle⟩⟩ := hd
    · exact .param he hk hp
    · exact .local he hpos hspan (by omega)

/-- An element of an array is a place of its type, if an integer is in the index register. -/
theorem Describes.element (h : S.Describes f limit scope) (hl : limit ≤ t.slots) {base : Expr}
    {slot : Slot} {ty indexTy : Ty} (ho : arraySlot scope base = .ok (slot, ty))
    (hix : t.regs .ix = some indexTy) (hint : indexTy.isIntegral = true) :
    S.Place f t (slot.operand (some .ix)) ty := by
  obtain ⟨name, loc, v, -, hv, harr, rfl, rfl⟩ := arraySlot_eq_ok ho
  have hd := h hv
  rcases v with ⟨ty, isArray, length, value, offset | key⟩
  · exact .globalElement hd rfl hix hint
  · obtain ⟨e, he, rfl, ⟨hscalar, -⟩ | ⟨hpos, hspan, hle⟩⟩ := hd
    · cases harr.symm.trans hscalar
    · exact .localElement he hpos hspan (by omega) hix hint

/-- The scratch cell of a type, which holds a value of the type. -/
theorem exists_cell (hS : S.Faithful) {ty : Ty} (hx : (s.withCell ty).globals.Extends S.globals) :
    ∃ o w, cellOperand s.globals ty = .ptr ⟨.global, (o : Nat), none⟩ ∧ (ty, o) ∈ S.globals.casts ∧
      S.globals.values[o]? = some w ∧ w.ty = ty := by
  have hlook := hx.casts (GlobalLayout.lookup_castCell s.globals ty)
  have hcell := GlobalLayout.mem_casts_of_lookup hlook
  obtain ⟨w, hw, hty⟩ := hS.globals.cell hcell 0 Nat.zero_lt_one
  exact ⟨_, w, rfl, hcell, hw, hty⟩

theorem place_cellOperand (hS : S.Faithful) {ty : Ty}
    (hx : (s.withCell ty).globals.Extends S.globals) :
    S.Place f t (cellOperand s.globals ty) ty := by
  obtain ⟨o, w, ho, -, hw, rfl⟩ := exists_cell hS hx
  rw [ho]
  exact .global hw

/-! ## Code that says nothing of `R2` -/

variable {c d : Code} {a b ty : Ty} {o : Operand} {x y : Reg}

/-- An action whose code says nothing of `R2`. -/
def CalmAction (S : TypedSetting) (f : Routine) (x : Lower (Code × Ty)) : Prop :=
  ∀ ⦃s c ty s'⦄, x s = .ok ((c, ty), s') → S.Calm f c

section Calm

variable {called : String → Signature → Nat → Prop} {m n : Nat} {code : Code}

theorem offers_ne_r2 (scope : Scope) : Offers (· ≠ .reg .r2) scope :=
  fun _ _ _ => ⟨operand_ne_reg _ _ _, operand_ne_reg _ _ _⟩

theorem dest_ne_of_moves {i : Instr} (h : Moves (· ≠ .reg .r2) s m i n) :
    i.dest ≠ some (.reg .r2) := by
  have hstored {o : Operand} (h : Storable (· ≠ .reg .r2) s o) : some o ≠ some (.reg .r2) := by
    cases h with
    | place h => simpa using h
    | cell => nofun
  cases h with
  | push h =>
    cases h with
    | imm => nofun
    | reg h => simpa [Instr.push, Instr.unary] using h
    | stored h => exact hstored h
  | pop h => simpa [Instr.pop, Instr.unary] using h
  | mov _ h => exact hstored h
  | step _ h => exact hstored h

theorem calm_callCode (name : String) (sig : Signature) (argc : Nat) :
    S.Calm f (callCode name sig argc) := by
  refine calm_ofInstrs ?_
  unfold callTarget
  split <;> simp [Instr.call, Instr.binary, Instr.withComment]

theorem calm_unaryCode (op : UnaryOp) (hc : S.Calm f c) : S.Calm f (unaryCode op c) := by
  refine hc.append ?_
  cases op with
  | neg => exact calm_ofInstrs (by simp [Instr.pop, Instr.push, Instr.ldi, Instr.binary,
      Instr.unary, r0, r1])
  | not =>
    refine Calm.append (calm_ofInstrs ?_) (calm_zeroTest true)
    simp [Instr.pop, Instr.unary, r0]
  | pos | inc | dec => exact calm_nil

/-- **Code made of pieces says nothing of `R2`.** -/
theorem calm_of_pieced (h : Pieced fn (· ≠ .reg .r2) called m s code n s') : S.Calm f code := by
  induction h with
  | nil => exact calm_nil
  | instr hi _ ih => exact ih.instr (dest_ne_of_moves hi)
  | append _ _ ih ih' => exact ih.append ih'
  | located loc _ ih => exact calm_located.mpr ih
  | cell _ _ ih => exact ih
  | unary op _ ih => exact calm_unaryCode op ih
  | @binary _ _ _ _ _ _ op _ _ _ ih ih' =>
    refine ((ih.append ih').append (calm_ofInstrs ?_)).append (calm_applyCode op)
    simp [Instr.pop, Instr.unary, r0, r1]
  | and _ _ ih ih' =>
    exact (((ih.append (calm_popTest _)).append ih').append (calm_popTest _)).append
      (calm_truthCode _)
  | or _ _ ih ih' =>
    refine ((((ih.append (calm_popTest _)).append ?_).append ih').append (calm_popTest _)).append
      (calm_truthCode _)
    exact .instr (.label calm_nil) (by simp [Instr.rjmp, Instr.unary])
  | call _ _ ih => exact ih.append (calm_callCode _ _ _)

/-- Pieces that do not store into `R2`, whatever they call. -/
theorem pieces_ne_r2 (fn : String) (scope : Scope) (e : Expr) :
    Pieces fn (· ≠ .reg .r2) (fun _ _ _ => True) (lower fn scope e) :=
  pieced_of_lower (offers_ne_r2 scope) (permits_any scope _)

theorem calm_of_lower (fn : String) (scope : Scope) (e : Expr) :
    S.CalmAction f (lower fn scope e) :=
  fun _ _ _ _ h => calm_of_pieced (pieces_ne_r2 fn scope e h 0)

theorem calm_of_lowerEffect (h : lowerEffect fn scope e s = .ok (code, s')) : S.Calm f code :=
  calm_of_pieced (pieced_of_lowerEffect (offers_ne_r2 scope) (permits_any scope _) h 0)

end Calm

/-! ## Expressions at their stages -/

/-- The code of an expression stands at its stage, where the slots below `limit` are reserved and
nothing is known of `R2`; the supply after it grew into that of the program. -/
structure Poised (S : TypedSetting) (f : Routine) (limit : Nat) (s : Supply) (t : Stage)
    (addr : Nat) (c : Code) : Prop where
  grown : s.globals.Extends S.globals
  limit_le : limit ≤ t.slots
  quiet : t.regs .r2 = none
  staged : S.Staged f t addr c

/-- Where the code of an expression ends, a value of its static type is on top of the stack. -/
def Typed (S : TypedSetting) (f : Routine) (e : ExprOccurrence) : Prop :=
  ∀ ⦃code ty s'⦄, lower e.fn e.scope e.expr e.supply = .ok ((code, ty), s') →
    ∃ born rest, (S.stage f (e.addr + code.size)).temps = ⟨some ty, born⟩ :: rest

/-- An expression and all expressions inside it leave values of their static types. -/
def Settled (S : TypedSetting) (f : Routine) (e : ExprOccurrence) : Prop :=
  ∀ ⦃e'⦄, Relation.ReflTransGen ExprPart e e' → S.Typed f e'

theorem settled_of_parts {e : ExprOccurrence} (he : S.Typed f e)
    (hparts : ∀ e', ExprPart e e' → S.Settled f e') : S.Settled f e := by
  intro e' h
  rcases Relation.ReflTransGen.cases_head h with rfl | ⟨e₁, hpart, hrest⟩
  · exact he
  · exact hparts e₁ hpart hrest

theorem Settled.part {e e' : ExprOccurrence} (h : S.Settled f e) (hpart : ExprPart e e') :
    S.Settled f e' := fun _ hrest => h (.head hpart hrest)

theorem Yields.typed (hrun : lower fn scope e s = .ok ((c, ty), s')) (h : S.Yields f t addr c ty)
    (hs : S.Staged f t addr c) : S.Typed f ⟨fn, scope, s, e, addr⟩ := by
  intro code ty' s'' hrun'
  cases hrun.symm.trans hrun'
  obtain ⟨⟨born, -, htemps⟩, -⟩ := h
  exact ⟨born, t.temps, hs.finish.temps.trans htemps⟩

/-- Wherever an expression of the source is lowered, its code leaves a value of its type, and so
does that of all expressions inside it. -/
def Types (S : TypedSetting) (f : Routine) (limit : Nat) (fn : String) (scope : Scope) (e : Expr) :
    Prop :=
  ∀ ⦃s c ty s' t addr⦄, lower fn scope e s = .ok ((c, ty), s') → S.Poised f limit s' t addr c →
    (S.header f).lowers true ⟨fn, scope, s, e, addr⟩ →
    S.Yields f t addr c ty ∧ S.Settled f ⟨fn, scope, s, e, addr⟩

@[simp]
theorem poised_located {loc : Location} :
    S.Poised f limit s t addr (Code.located loc c) ↔ S.Poised f limit s t addr c := by
  constructor
  · rintro ⟨hgrown, hlimit, hquiet, hstaged⟩
    exact ⟨hgrown, hlimit, hquiet, staged_located.mp hstaged⟩
  · rintro ⟨hgrown, hlimit, hquiet, hstaged⟩
    exact ⟨hgrown, hlimit, hquiet, staged_located.mpr hstaged⟩

theorem Poised.append_left (h : S.Poised f limit s' t addr (c ++ d)) (hd : Draws s s') :
    S.Poised f limit s t addr c :=
  ⟨hd.extends.trans h.grown, h.limit_le, h.quiet, (staged_append.mp h.staged).1⟩

theorem Poised.append_right (h : S.Poised f limit s t addr (c ++ d)) (hc : S.Calm f c) :
    S.Poised f limit s (S.walk f t addr c) (addr + c.size) d :=
  ⟨h.grown, h.limit_le.trans (le_slots_walk c), hc h.quiet, (staged_append.mp h.staged).2⟩

/-! ## Stores and conversions -/

theorem assignable_self (h : ty ≠ .void) : assignable ty ty = true := by
  cases ty with
  | void => exact absurd rfl h
  | _ => rfl

section Constructs

variable {fn : String} {s s' : Supply} {e left right : Expr} {code : Code} {dest : Operand}
  {lowered : Lower (Code × Ty)} {found : Ty}

/-- A store of a constant or of another variable. -/
theorem keeps_of_stored_immediate (hS : S.Faithful) (hdesc : S.Describes f limit scope)
    (h : Stored scope dest ty lowered s e code s') (himm : isImmediate e = true)
    (hdest : S.Place f t dest ty) (hl : limit ≤ t.slots) :
    S.Keeps f t addr code ∧ S.walk f t addr code = t := by
  have hmov {src : Operand} {found : Ty} (hsrc : S.Sees f t src found)
      (ha : assignable ty found = true) : S.Keeps f t addr (Code.ofInstrs [.mov dest src]) ∧
        S.walk f t addr (Code.ofInstrs [.mov dest src]) = t := by
    have hafter : S.after f t addr (.mov dest src) = t := after_store hdest.ne_reg
    exact ⟨⟨congrArg Stage.temps hafter, .store hdest hsrc ha, trivial⟩, hafter⟩
  cases h with
  | @literal v w loc hw =>
    obtain rfl : w.ty = ty := ty_of_coerce (convertConstant_eq_ok.mp hw).2
    exact hmov (.imm w) (assignable_self w.ty_ne_void)
  | ident hsrc ha => exact hmov (.place (hdesc.scalar hS hl hsrc)) ha
  | computed hnot => cases himm.symm.trans hnot

/-- A store of a computed value. -/
theorem Yields.store (h : S.Yields f t addr c found) (ha : assignable ty found = true)
    (hdest : S.Place f ((S.walk f t addr c).pop .r0) dest ty) :
    S.Keeps f t addr (c ++ Code.ofInstrs [.pop r0, .mov dest r0]) := by
  obtain ⟨⟨born, -, htemps⟩, hacc⟩ := h
  have hreg : ((S.walk f t addr c).pop .r0).regs .r0 = some found := by
    simp [htemps]
  refine ⟨?_, accepted_append.mpr ⟨hacc, .pop htemps, .store hdest (.reg hreg) ha, trivial⟩⟩
  simp [r0, after_store hdest.ne_reg, htemps]

/-- A value that passes through a scratch cell. -/
theorem Yields.convert (hS : S.Faithful) (h : S.Yields f t addr c found)
    (ha : assignable ty found = true) (hdest : ∀ t, S.Place f t dest ty) :
    S.Yields f t addr (c ++ throughCell dest found ty) ty := by
  have hstore : S.Keeps f t addr (c ++ Code.ofInstrs [.pop r0,
      (Instr.mov dest r0).withComment (found.name ++ " -> " ++ ty.name)]) := by
    obtain ⟨⟨born, -, htemps⟩, hacc⟩ := h
    have hreg : ((S.walk f t addr c).pop .r0).regs .r0 = some found := by
      simp [htemps]
    refine ⟨?_, accepted_append.mpr
      ⟨hacc, .pop htemps, .store (hdest _) (.reg hreg) ha, trivial⟩⟩
    simp [r0, after_store_withComment (hdest t).ne_reg, htemps]
  have hcode : c ++ throughCell dest found ty = (c ++ Code.ofInstrs [.pop r0,
      (Instr.mov dest r0).withComment (found.name ++ " -> " ++ ty.name)]) ++
      Code.ofInstrs [.push dest] := by
    simp [throughCell]
  rw [hcode]
  exact hstore.yields (yields_push (.place (hdest _)) hS.globals)

variable {loc : Location} {needed prefixed : Bool} {op : UnaryOp} {args : List Expr} {callee : Expr}

theorem yields_literal {v : Value} (hS : S.Faithful)
    (h : lower fn scope (.literal v loc) s = .ok ((c, ty), s')) : S.Yields f t addr c ty := by
  obtain ⟨c, rfl, hc⟩ := lowered_of_lower h
  cases hc
  rw [yields_located]
  exact yields_push (.imm v) hS.globals

/-- A value for a slot. A constant needs no code of its own. -/
theorem yields_of_valued (hS : S.Faithful) (h : Valued ty (lower fn scope e) s e code s')
    (hp : S.Poised f limit s' t addr code) (he : S.Types f limit fn scope e)
    (hlow : (∀ v loc, e ≠ .literal v loc) → (S.header f).lowers true ⟨fn, scope, s, e, addr⟩) :
    S.Yields f t addr code ty ∧
      ((∀ v loc, e ≠ .literal v loc) → S.Settled f ⟨fn, scope, s, e, addr⟩) := by
  -- a literal is no occurrence of its own, so nothing is said about its lowering
  have hcode {c : Code} {found : Ty} {s₁ : Supply}
      (hrun : lower fn scope e s = .ok ((c, found), s₁)) (hp : S.Poised f limit s₁ t addr c) :
      S.Yields f t addr c found ∧
        ((∀ v loc, e ≠ .literal v loc) → S.Settled f ⟨fn, scope, s, e, addr⟩) := by
    by_cases hlit : ∀ v loc, e ≠ .literal v loc
    · obtain ⟨hyields, hsettled⟩ := he hrun hp (hlow hlit)
      exact ⟨hyields, fun _ => hsettled⟩
    · refine ⟨?_, fun h => absurd h hlit⟩
      simp only [ne_eq, not_forall, not_not] at hlit
      obtain ⟨v, loc, rfl⟩ := hlit
      exact yields_literal hS hrun
  cases h with
  | @literal v w loc hw =>
    obtain rfl : w.ty = ty := ty_of_coerce (convertConstant_eq_ok.mp hw).2
    refine ⟨?_, fun h => absurd rfl (h v loc)⟩
    rw [yields_located]
    exact yields_push (.imm w) hS.globals
  | same hrun _ => exact hcode hrun hp
  | @converted _ c found s₁ hrun ha _ =>
    have hp' : S.Poised f limit s₁ t addr c :=
      hp.append_left (.cell (ne_void_of_assignable ha) .refl)
    obtain ⟨hyields, hsettled⟩ := hcode hrun hp'
    exact ⟨hyields.convert hS ha fun _ => place_cellOperand hS hp.grown, hsettled⟩

/-- A store into a place that no computation moves. -/
theorem keeps_of_stored (hS : S.Faithful) (hdesc : S.Describes f limit scope)
    (h : Stored scope dest ty (lower fn scope e) s e code s') (hp : S.Poised f limit s' t addr code)
    (hdest : ∀ {t' : Stage}, t.slots ≤ t'.slots → S.Place f t' dest ty)
    (hlow : isImmediate e = false → (S.header f).lowers true ⟨fn, scope, s, e, addr⟩)
    (he : S.Types f limit fn scope e) :
    S.Keeps f t addr code ∧ (isImmediate e = false → S.Settled f ⟨fn, scope, s, e, addr⟩) := by
  by_cases himm : isImmediate e = true
  · obtain ⟨hkeeps, -⟩ := keeps_of_stored_immediate hS hdesc h himm (hdest le_rfl) hp.limit_le
    exact ⟨hkeeps, fun hnot => by cases himm.symm.trans hnot⟩
  · cases h with
    | literal => exact absurd rfl himm
    | ident => exact absurd rfl himm
    | computed hnot hrun ha =>
      obtain ⟨hyields, hsettled⟩ := he hrun (hp.append_left .refl) (hlow hnot)
      exact ⟨hyields.store ha (hdest (le_slots_walk _)), fun _ => hsettled⟩

/-! ## Assignments and steps -/

/-- The index of an element is taken into the index register. -/
theorem Yields.popIndex (h : S.Yields f t addr c ty) :
    S.Keeps f t addr (c ++ Code.ofInstrs [.pop ix]) ∧
      (S.walk f t addr (c ++ Code.ofInstrs [.pop ix])).regs .ix = some ty := h.pop .ix

/-- An assignment leaves the stack as it was, and what it has stored can be read back. -/
theorem keeps_of_assigned (hS : S.Faithful) (hdesc : S.Describes f limit scope)
    (h : Assigned scope right (lowerIndex fn scope left) (lower fn scope right) s left code dest ty
      s') (hp : S.Poised f limit s' t addr code)
    (hlow : (S.header f).lowers needed ⟨fn, scope, s, .assign left right loc, addr⟩)
    (hi : ∀ base index loc', left = .member base index loc' → S.Types f limit fn scope index)
    (hr : S.Types f limit fn scope right) :
    S.Keeps f t addr code ∧ S.Place f (S.walk f t addr code) dest ty ∧
      ∀ e', ExprPart ⟨fn, scope, s, .assign left right loc, addr⟩ e' → S.Settled f e' := by
  cases h with
  | @scalar name loc' _ _ _ _ hd hs =>
    have hplace {t' : Stage} (ht : t.slots ≤ t'.slots) : S.Place f t' dest ty :=
      hdesc.scalar hS (hp.limit_le.trans ht) hd
    -- a variable has no index, whose code would come first
    have hright (hnot : isImmediate right = false) :
        (S.header f).lowers true ⟨fn, scope, s, right, addr + Code.size []⟩ :=
      hS.part hlow (.source hnot rfl)
    obtain ⟨hkeeps, hsettled⟩ := keeps_of_stored hS hdesc hs hp hplace hright hr
    refine ⟨hkeeps, hplace (le_slots_walk code), fun e' hpart => ?_⟩
    cases hpart with
    | source hnot hindex =>
      cases hindex
      exact hsettled hnot
  | @immediate name loc₁ loc₂ index _ _ indexTy indexCode store s₁ _ harr hix hint himm hs =>
    have hlow' := hS.part hlow .targetIndex
    have hp₁ := hp.append_left (hs.draws (draws_of_lower fn scope right))
    obtain ⟨hyields, hsettled⟩ := hi _ _ _ rfl hix (hp₁.append_left .refl) hlow'
    obtain ⟨hkeeps, hreg⟩ := hyields.popIndex
    have hslots : limit ≤ (S.walk f t addr (indexCode ++ Code.ofInstrs [.pop ix])).slots :=
      hp.limit_le.trans (le_slots_walk _)
    have hplace := hdesc.element hslots harr hreg hint
    obtain ⟨hstore, hwalk⟩ := keeps_of_stored_immediate hS hdesc hs himm hplace hslots
    refine ⟨hkeeps.append hstore, ?_, fun e' hpart => ?_⟩
    · rwa [walk_append, hwalk]
    · cases hpart with
      | targetIndex => exact hsettled
      | source hnot _ => cases himm.symm.trans hnot
  | @computed name loc₁ loc₂ index slot _ indexTy found indexCode value s₁ _ harr hix hint himm hrun
      ha =>
    have hlow₁ := hS.part hlow .targetIndex
    have hlow₂ : (S.header f).lowers true ⟨fn, scope, s₁, right, addr + indexCode.size⟩ :=
      hS.part hlow (.source himm hix)
    have hp₁ := hp.append_left .refl
    obtain ⟨⟨⟨born, -, htemps⟩, hacc⟩, hsettled₁⟩ :=
      hi _ _ _ rfl hix (hp₁.append_left (draws_of_lower fn scope right hrun)) hlow₁
    obtain ⟨⟨⟨born', -, htemps'⟩, hacc'⟩, hsettled₂⟩ :=
      hr hrun (hp₁.append_right (calm_of_lower fn scope index hix)) hlow₂
    rw [htemps, ← walk_append] at htemps'
    -- the value was computed last, so it is taken off the stack before the index
    have hreg : (((S.walk f t addr (indexCode ++ value)).pop .r0).pop .ix).regs .r0 = some found := by
      rw [Stage.regs_pop_of_ne (by decide), Stage.regs_pop_self, htemps']
      rfl
    have hix' : (((S.walk f t addr (indexCode ++ value)).pop .r0).pop .ix).regs .ix =
        some indexTy := by
      rw [Stage.regs_pop_self, Stage.temps_pop, htemps']
      rfl
    have hslots : limit ≤ (((S.walk f t addr (indexCode ++ value)).pop .r0).pop .ix).slots :=
      hp.limit_le.trans (le_slots_walk _)
    have hplace := hdesc.element hslots harr hix' hint
    have hwalk : S.walk f t addr (indexCode ++ value ++
        Code.ofInstrs [.pop r0, .pop ix, .mov (slot.operand (some .ix)) r0]) =
        ((S.walk f t addr (indexCode ++ value)).pop .r0).pop .ix := by
      rw [walk_append]
      exact after_store hplace.ne_reg
    rw [Keeps, hwalk]
    refine ⟨⟨?_, ?_⟩, hplace, fun e' hpart => ?_⟩
    · rw [Stage.temps_pop, Stage.temps_pop, htemps']
      rfl
    · exact accepted_append.mpr ⟨accepted_append.mpr ⟨hacc, hacc'⟩, .pop htemps',
        .pop (congrArg List.tail htemps'), .store hplace (.reg hreg) ha, trivial⟩
    · cases hpart with
      | targetIndex => exact hsettled₁
      | source _ hindex =>
        cases hix.symm.trans hindex
        exact hsettled₂

/-- The place that a step by one changes. -/
theorem keeps_of_stepped (hS : S.Faithful) (hdesc : S.Describes f limit scope)
    (hop : isStep op = true) (h : Stepped scope (lowerIndex fn scope e) s e code dest ty s')
    (hp : S.Poised f limit s' t addr code)
    (hlow : (S.header f).lowers needed ⟨fn, scope, s, .unary op e prefixed loc, addr⟩)
    (hi : ∀ base index loc', e = .member base index loc' → S.Types f limit fn scope index) :
    S.Keeps f t addr code ∧ S.Place f (S.walk f t addr code) dest ty ∧
      ∀ e', ExprPart ⟨fn, scope, s, .unary op e prefixed loc, addr⟩ e' → S.Settled f e' := by
  cases h with
  | scalar hd =>
    refine ⟨keeps_nil, hdesc.scalar hS hp.limit_le hd, fun e' hpart => ?_⟩
    cases hpart with
    | operand hnot => cases hop.symm.trans hnot
  | element harr hix hint =>
    obtain ⟨hyields, hsettled⟩ :=
      hi _ _ _ rfl hix (hp.append_left .refl) (hS.part hlow (.stepIndex hop))
    obtain ⟨hkeeps, hreg⟩ := hyields.popIndex
    refine ⟨hkeeps, hdesc.element (hp.limit_le.trans (le_slots_walk _)) harr hreg hint,
      fun e' hpart => ?_⟩
    cases hpart with
    | operand hnot => cases hop.symm.trans hnot
    | stepIndex _ => exact hsettled

theorem Place.ne_imm (h : S.Place f t o ty) (v : Value) : o ≠ .imm v := by
  cases h <;> simp

theorem keeps_changeCode (hty : ty = .int ∨ ty = .double) (hdest : S.Place f t dest ty) :
    S.Keeps f t addr (changeCode op prefixed false dest) :=
  ⟨congrArg Stage.temps after_step, accepts_step hty (.place hdest) hdest.ne_imm, trivial⟩

/-- A step by one whose value is needed: the new one, or the old one. -/
theorem yields_changeCode (hS : S.Faithful) (hty : ty = .int ∨ ty = .double)
    (hdest : S.Place f t dest ty) (hs : S.Staged f t addr (changeCode op prefixed true dest)) :
    S.Yields f t addr (changeCode op prefixed true dest) ty := by
  cases prefixed with
  | true =>
    refine Yields.instr after_step rfl (accepts_step hty (.place hdest) hdest.ne_imm) ?_
    exact yields_push (.place hdest) hS.globals
  | false =>
    -- the value is pushed by the first instruction and the place is changed by the second one
    obtain ⟨-, -, -, hstep, -⟩ := hs
    obtain ⟨j, hj, hop, -⟩ := exists_of_placed hstep
    have hplace : S.Place f (t.push dest ⟨S.kind f t dest, addr + 1⟩) dest ty :=
      hdest.mono le_rfl fun h => by rwa [Stage.regs_push_of_ne hdest.ne_reg]
    refine ⟨⟨addr + 1, .inr ⟨rfl, j, hj, ?_⟩, ?_⟩, .push (.place hdest),
      accepts_step hty (.place hplace) hplace.ne_imm, trivial⟩
    · rw [hop]
      exact stepCode_eq _
    · simp [changeCode, hdest.kind hS.globals]

/-! ## Arguments and calls -/

/-- What the code of the arguments of a call leaves, from the `n`-th argument on: their values, of
the types of the parameters as far as there are any. -/
structure Supplies (S : TypedSetting) (f : Routine) (x : ExprOccurrence) (n : Nat)
    (params : List Ty) (count : Nat) (t : Stage) (addr : Nat) (c : Code) (temps : List Temp) :
    Prop where
  walk : (S.walk f t addr c).temps = temps ++ t.temps
  length : temps.length = count
  typed : ∀ (k : Nat) (ty : Ty), params[k]? = some ty → k < count →
    temps[k]?.bind Temp.ty = some ty
  passes : ∀ (k : Nat) (temp : Temp), temps[k]? = some temp →
    ∃ start c, x.Passes (n + k) start c ∧ S.Delivers start c temp.born
  accepted : S.Accepted f t addr c

/-- An argument leaves its value, of the type of its parameter if it has one. -/
theorem yields_of_passed (hS : S.Faithful) {param : Option Ty}
    (h : Passed fn scope s e param code s') (hp : S.Poised f limit s' t addr code)
    (he : S.Types f limit fn scope e)
    (hlow : (param.isSome = true → ∀ v loc, e ≠ .literal v loc) →
      (S.header f).lowers true ⟨fn, scope, s, e, addr⟩) :
    (∃ ty, (∀ want, param = some want → ty = want) ∧ S.Yields f t addr code ty) ∧
      ((param.isSome = true → ∀ v loc, e ≠ .literal v loc) →
        S.Settled f ⟨fn, scope, s, e, addr⟩) := by
  cases h with
  | @param want _ _ hv =>
    obtain ⟨hyields, hsettled⟩ := yields_of_valued hS hv hp he fun hlit => hlow fun _ => hlit
    refine ⟨⟨want, fun _ h => Option.some.inj h, hyields⟩, fun hlit => hsettled (hlit rfl)⟩
  | @extra ty _ _ hrun =>
    obtain ⟨hyields, hsettled⟩ := he hrun hp (hlow (by simp))
    exact ⟨⟨ty, by simp, hyields⟩, fun _ => hsettled⟩

/-- The code of the arguments from some place on leaves their values. -/
theorem supplies_of_lowerArgs (hS : S.Faithful) {name : String} {sig : Signature} (pre : List Expr)
    (hsig : calleeSignature scope callee = .ok (name, sig))
    (hrun : lowerArgs fn scope args (sig.params.drop pre.length) s = .ok (code, s'))
    (hp : S.Poised f limit s' t addr code)
    (hlow : (S.header f).lowers needed ⟨fn, scope, s, .call callee (pre ++ args) loc, addr⟩)
    (hargs : ∀ e ∈ args, S.Types f limit fn scope e) :
    (∃ temps, S.Supplies f ⟨fn, scope, s, .call callee (pre ++ args) loc, addr⟩ pre.length
        (sig.params.drop pre.length) args.length t addr code temps) ∧
      ∀ pre' arg post before s₁, args = pre' ++ arg :: post →
        lowerArgs fn scope post (sig.params.drop (pre.length + pre'.length + 1)) s =
          .ok (before, s₁) →
        (pre.length + pre'.length < sig.params.length → ∀ v loc', arg ≠ .literal v loc') →
        S.Settled f ⟨fn, scope, s₁, arg, addr + before.size⟩ := by
  -- the arguments are lowered from the last one on, so the induction goes down to the last ones
  induction args generalizing pre code s' with
  | nil =>
    obtain ⟨rfl, -⟩ := lowerArgs_nil_eq_ok.mp hrun
    refine ⟨⟨[], rfl, rfl, fun k ty _ hk => absurd hk (Nat.not_lt_zero k), by simp, trivial⟩, ?_⟩
    intro pre' arg post before s₁ hsplit
    simp at hsplit
  | cons arg rest ih =>
    obtain ⟨before, s₁, here, hrest, hpass, rfl⟩ := passed_of_lowerArgs hrun
    rw [List.tail_drop] at hrest
    have hsplit : pre ++ arg :: rest = (pre ++ [arg]) ++ rest := by simp
    have hlen : (pre ++ [arg]).length = pre.length + 1 := by simp
    have hparam : (sig.params.drop pre.length).head?.isSome = true ↔
        pre.length < sig.params.length := by
      simp
    obtain ⟨⟨temps, hsup⟩, hsettled⟩ := ih (pre ++ [arg]) (by rwa [hlen])
      (hp.append_left (hpass.draws (draws_of_lower fn scope arg))) (by rwa [← hsplit])
      fun e he => hargs e (List.mem_cons_of_mem arg he)
    rw [← hsplit, hlen] at hsup
    rw [hlen] at hsettled
    have hcalm : S.Calm f before :=
      calm_of_pieced (m := 0) (pieced_of_lowerArgs (fun e _ => pieces_ne_r2 fn scope e) hrest)
    obtain ⟨⟨ty, hty, ⟨born, hborn, htemps⟩, hacc⟩, hlast⟩ :=
      yields_of_passed hS hpass (hp.append_right hcalm) (hargs arg List.mem_cons_self) fun hlit =>
        hS.part hlow (.argument hsig hrest fun h => hlit (hparam.mpr h))
    refine ⟨⟨⟨some ty, born⟩ :: temps, ?_, ?_, ?_, ?_, ?_⟩, ?_⟩
    · rw [walk_append, htemps, hsup.walk, List.cons_append]
    · rw [List.length_cons, hsup.length, List.length_cons]
    · intro k want hk hlt
      cases k with
      | zero => exact congrArg some (hty want (by rwa [List.head?_eq_getElem?]))
      | succ k =>
        refine hsup.typed k want ?_ (Nat.lt_of_succ_lt_succ hlt)
        rwa [List.getElem?_drop, Nat.add_assoc, Nat.add_comm 1, ← List.getElem?_drop]
    · intro k temp hk
      cases k with
      | zero =>
        cases hk
        exact ⟨_, _, .intro hsig hrest hrun, hborn⟩
      | succ k =>
        obtain ⟨start, c, hpasses, hdelivers⟩ := hsup.passes k temp hk
        rw [Nat.add_assoc, Nat.add_comm 1] at hpasses
        exact ⟨start, c, hpasses, hdelivers⟩
    · exact accepted_append.mpr ⟨hsup.accepted, hacc⟩
    · intro pre' arg' post before' s₂ hsplit' hrun' hlit
      rcases pre' with _ | ⟨first, pre'⟩
      · obtain ⟨rfl, rfl⟩ := List.cons.inj hsplit'
        cases hrest.symm.trans hrun'
        exact hlast fun h => hlit (hparam.mp h)
      · obtain ⟨rfl, rfl⟩ := List.cons.inj hsplit'
        have hcount : pre.length + (arg :: pre').length = pre.length + 1 + pre'.length := by
          rw [List.length_cons]
          omega
        rw [hcount] at hrun' hlit
        exact hsettled pre' arg' post before' s₂ rfl hrun' hlit

/-- A call takes its arguments off the stack, and its result, if it is known, is in `RV`. -/
theorem keeps_of_call (hS : S.Faithful) (hdesc : S.Describes f limit scope) {name : String}
    {sig : Signature} (hsig : calleeSignature scope callee = .ok (name, sig))
    (htakes : Takes sig args.length) (hrun : lowerArgs fn scope args sig.params s = .ok (code, s'))
    (hp : S.Poised f limit s' t addr (code ++ callCode name sig args.length))
    (hlow : (S.header f).lowers needed ⟨fn, scope, s, .call callee args loc, addr⟩)
    (hargs : ∀ e ∈ args, S.Types f limit fn scope e) :
    S.Keeps f t addr (code ++ callCode name sig args.length) ∧
      (S.walk f t addr (code ++ callCode name sig args.length)).regs .rv =
        S.result? (callTarget name sig) ∧
      ∀ e', ExprPart ⟨fn, scope, s, .call callee args loc, addr⟩ e' → S.Settled f e' := by
  obtain ⟨⟨temps, hsup⟩, hsettled⟩ := supplies_of_lowerArgs hS [] hsig hrun
    (hp.append_left .refl) hlow hargs
  obtain ⟨loc', rfl, hlook⟩ := calleeSignature_eq_ok hsig
  have hname := hdesc.function hlook
  have hsize : code.size < 2 ^ 63 :=
    (staged_append.mp hp.staged).1.size_le.trans_lt hS.addressable
  -- every argument has at least one instruction, so their number fits a machine word
  have hcount : 0 + args.length ≤ 0 + code.size :=
    (pieced_of_lowerArgs (fun e _ => pieces_lower fn scope e) hrun).le_size
  have hargc : (Int64.ofNat args.length).toInt = args.length :=
    Int64.toInt_ofNat_of_lt (by omega)
  have htyped (k : Nat) (ty : Ty) (hk : sig.params[k]? = some ty) :
      (S.walk f t addr code).temps[k]?.bind Temp.ty = some ty := by
    have hlt : k < args.length := (List.getElem?_eq_some_iff.mp hk).1.trans_le htakes.1
    rw [hsup.walk, List.getElem?_append_left (by rwa [hsup.length])]
    exact hsup.typed k ty hk hlt
  -- a compiled function must get exactly its parameters, a host function may get more
  have hcall : S.Accepts f (S.walk f t addr code) (addr + code.size) .call
      (some (callTarget name sig)) (some (.imm (.int (Int64.ofNat args.length)))) false := by
    cases hext : sig.external with
    | false =>
      obtain ⟨hvar, g, hg, hlabel, hparams, hheader, hret⟩ := hS.compiled hname hext
      rw [callTarget, hext]
      refine .call hg hlabel ?_ ?_ ?_
      · rw [hargc, hparams, Nat.le_antisymm (htakes.2 hvar) htakes.1]
      · rwa [hheader]
      · intro ty hty
        simp only [result?, hname] at hty
        split at hty
        · cases hty
        next hvoid =>
          cases hty
          exact ⟨hret.symm, hvoid⟩
    | true =>
      obtain ⟨decl, hdecl, hparams, -⟩ := hS.host hname hext
      rw [callTarget, hext]
      refine .host hargc ⟨decl, needed, _, args, loc', loc, sig, code, s', hdecl, hlow, rfl, hsig,
        hrun, rfl, rfl, ?_, ?_, ?_⟩
      · rw [hparams]
        exact htakes.1
      · rwa [hparams]
      · intro k hk
        have hk' : k < temps.length := by rwa [hsup.length]
        obtain ⟨start, c, hpasses, hdelivers⟩ := hsup.passes k _ (List.getElem?_eq_getElem hk')
        rw [List.length_nil, Nat.zero_add] at hpasses
        refine ⟨temps[k], start, c, ?_, hpasses, hdelivers⟩
        rw [hsup.walk, List.getElem?_append_left hk', List.getElem?_eq_getElem hk']
  have hwalk : S.walk f t addr (code ++ callCode name sig args.length) =
      (S.walk f t addr code).call args.length (S.result? (callTarget name sig)) := by
    simp [callCode, hargc]
  refine ⟨⟨?_, accepted_append.mpr ⟨hsup.accepted, hcall, trivial⟩⟩, ?_, ?_⟩
  · rw [hwalk, Stage.temps_call, hsup.walk, ← hsup.length, List.drop_left]
  · rw [hwalk, Stage.regs_call_rv]
  · intro e' hpart
    cases hpart with
    | argument hsig' hpost hlit =>
      cases hsig.symm.trans hsig'
      exact hsettled _ _ _ _ _ rfl (by simpa using hpost) (by simpa using hlit)

/-- A call for its effect, and one for its value. -/
theorem accepted_of_called (hS : S.Faithful) (hdesc : S.Describes f limit scope) {wantValue : Bool}
    (h : Called scope callee args.length (lowerArgs fn scope args) s wantValue code ty s')
    (hp : S.Poised f limit s' t addr code)
    (hlow : (S.header f).lowers needed ⟨fn, scope, s, .call callee args loc, addr⟩)
    (hargs : ∀ e ∈ args, S.Types f limit fn scope e) :
    (if wantValue then S.Yields f t addr code ty else S.Keeps f t addr code) ∧
      ∀ e', ExprPart ⟨fn, scope, s, .call callee args loc, addr⟩ e' → S.Settled f e' := by
  cases h with
  | effect hsig htakes hrun =>
    obtain ⟨hkeeps, -, hparts⟩ := keeps_of_call hS hdesc hsig htakes hrun hp hlow hargs
    exact ⟨hkeeps, hparts⟩
  | @compiled name sig c _ hsig htakes hrun hext hret =>
    obtain ⟨hkeeps, hrv, hparts⟩ :=
      keeps_of_call hS hdesc hsig htakes hrun (hp.append_left .refl) hlow hargs
    refine ⟨hkeeps.yields (yields_push_reg (hrv.trans ?_)), hparts⟩
    obtain ⟨loc', rfl, hlook⟩ := calleeSignature_eq_ok hsig
    simp [callTarget, hext, result?, hdesc.function hlook, hret]
  | @host name sig c s₁ hsig htakes hrun hext hret =>
    obtain ⟨hkeeps, -, hparts⟩ := keeps_of_call hS hdesc hsig htakes hrun
      (hp.append_left (.cell hret .refl)) hlow hargs
    refine ⟨hkeeps.yields ?_, hparts⟩
    obtain ⟨loc', rfl, hlook⟩ := calleeSignature_eq_ok hsig
    obtain ⟨decl, hdecl, -, hret'⟩ := hS.host (hdesc.function hlook) hext
    obtain ⟨o, w, ho, hcell, hw, -⟩ := exists_cell hS hp.grown
    -- the instruction in front of the conversion is the call
    obtain ⟨-, hcall, -⟩ := (staged_append.mp (staged_append.mp hp.staged).1).2
    obtain ⟨j, hj, hop, hdest, -⟩ := exists_of_placed hcall
    have htarget : j.dest = some (.host name) := by
      rw [hdest]
      simp [Instr.call, Instr.binary, Instr.withComment, callTarget, hext, Operand.settle]
    have hplace (t : Stage) : S.Place f t (cellOperand s₁.globals sig.ret) sig.ret :=
      place_cellOperand hS hp.grown
    refine Yields.instr (after_store_withComment (hplace t).ne_reg) rfl ?_
      (yields_push (.place (hplace _)) hS.globals)
    rw [ho]
    refine .convert ?_ hj hop htarget hdecl (by rwa [hret']) hw
    rw [Code.size_append, Nat.add_assoc]
    rfl

/-! ## Expressions -/

theorem settled_of_binary {op : BinaryOp} {s₁ : Supply}
    (hl : lower fn scope left s = .ok ((code, ty), s₁))
    (hleft : S.Settled f ⟨fn, scope, s, left, addr⟩)
    (hright : S.Settled f ⟨fn, scope, s₁, right, addr + code.size + operandGap op⟩)
    (e' : ExprOccurrence) (hpart : ExprPart ⟨fn, scope, s, .binary op left right loc, addr⟩ e') :
    S.Settled f e' := by
  cases hpart with
  | left => exact hleft
  | right hl' =>
    cases hl.symm.trans hl'
    exact hright

/-- An operator on two operands. The code in between them has the length that is known of it. -/
theorem yields_of_binary (hS : S.Faithful) {op : BinaryOp}
    (h : Lowered fn scope s (.binary op left right loc) c ty s') (hp : S.Poised f limit s' t addr c)
    (hlow : (S.header f).lowers needed ⟨fn, scope, s, .binary op left right loc, addr⟩)
    (hleft : S.Types f limit fn scope left) (hright : S.Types f limit fn scope right) :
    S.Yields f t addr c ty ∧
      ∀ e', ExprPart ⟨fn, scope, s, .binary op left right loc, addr⟩ e' → S.Settled f e' := by
  have hcalm (e : Expr) : S.CalmAction f (lower fn scope e) := calm_of_lower fn scope e
  cases h with
  | binary hop hl hr hty =>
    -- the right operand starts where the left one ends, as nothing lies between them
    have hgap : operandGap op = 0 := by
      cases op with
      | and | or => cases hop
      | _ => rfl
    have hp₁ := (hp.append_left .refl).append_left .refl
    have hlow₂ := hS.part hlow (.right hl)
    rw [hgap] at hlow₂
    obtain ⟨hyields₁, hsettled₁⟩ :=
      hleft hl (hp₁.append_left (draws_of_lower fn scope right hr)) (hS.part hlow .left)
    obtain ⟨hyields₂, hsettled₂⟩ := hright hr (hp₁.append_right (hcalm left hl)) hlow₂
    refine ⟨yields_binaryCode hop hty hp.staged hyields₁ hyields₂,
      settled_of_binary hl hsettled₁ ?_⟩
    rwa [hgap]
  | @and _ _ _ lc rc _ _ _ s₁ s₂ hl hr hty =>
    obtain rfl := boolean_of_logical rfl hty
    have hgap (l : String) : addr + (lc ++ popTest l).size = addr + lc.size + operandGap .and := by
      simp [popTest, operandGap, Nat.add_assoc]
    have hp₁ : S.Poised f limit s₂ t addr (lc ++ popTest _ ++ rc) :=
      (hp.append_left (.labels 3 .refl)).append_left .refl
    have hp₂ := (hp₁.append_left (draws_of_lower fn scope right hr)).append_left .refl
    have hlow₂ := hS.part hlow (.right hl)
    rw [← hgap (truthLabels fn s₂.labels).no] at hlow₂
    obtain ⟨hyields₁, hsettled₁⟩ := hleft hl hp₂ (hS.part hlow .left)
    obtain ⟨hyields₂, hsettled₂⟩ :=
      hright hr (hp₁.append_right ((hcalm left hl).append (calm_popTest _))) hlow₂
    refine ⟨yields_andCode hp.quiet (hcalm left hl) (hcalm right hr) hp.staged hyields₁ hyields₂,
      settled_of_binary hl hsettled₁ ?_⟩
    rwa [← hgap]
  | @or _ _ _ lc rc _ _ _ s₁ s₂ hl hr hty =>
    obtain rfl := boolean_of_logical rfl hty
    have hgap (yes rhs : String) :
        addr + (disjunct yes rhs lc).size = addr + lc.size + operandGap .or := by
      simp [disjunct, popTest, operandGap, Nat.add_assoc]
    have hp₁ := hp
    rw [orCode_eq] at hp₁
    have hp₂ := hp₁.append_left (.labels 4 .refl)
    have hp₃ := hp₂.append_left (draws_of_lower fn scope right hr)
    have hlow₂ := hS.part hlow (.right hl)
    rw [← hgap (truthLabels fn s₂.labels).yes (labelName fn "rhs" (s₂.labels + 3))] at hlow₂
    obtain ⟨hyields₁, hsettled₁⟩ :=
      hleft hl ((hp₃.append_left .refl).append_left .refl) (hS.part hlow .left)
    have hquiet := (hyields₁.walk_disjunct (truthLabels fn s₂.labels).yes
      (labelName fn "rhs" (s₂.labels + 3))).2
    obtain ⟨hyields₂, hsettled₂⟩ := hright hr ⟨(Draws.labels 4 .refl).extends.trans hp.grown,
      hp.limit_le.trans (le_slots_walk _), hquiet,
      (staged_append.mp (staged_append.mp hp₂.staged).2).1⟩ hlow₂
    refine ⟨yields_orCode (hcalm right hr) hp.staged hyields₁ hyields₂,
      settled_of_binary hl hsettled₁ ?_⟩
    rwa [← hgap]

end Constructs

/-- **The code of an expression leaves a value of its static type.** -/
theorem types_of_lower (hS : S.Faithful) (hdesc : S.Describes f limit scope) (fn : String)
    (e : Expr) : S.Types f limit fn scope e := by
  intro s c ty s' t addr hrun
  revert t addr
  refine lower_induct (fun {e s c ty s'} hrun hc ih t addr hp hlow => ?_) hrun
  have hall {e' : Expr} (hpart : Includes e e') : S.Types f limit fn scope e' :=
    fun _ _ _ _ _ _ hr hp hlow => ih hpart hr hp hlow
  -- an expression is settled if it leaves its type and its parts are settled
  suffices h : S.Yields f t addr (Code.located e.loc c) ty ∧
      ∀ e', ExprPart ⟨fn, scope, s, e, addr⟩ e' → S.Settled f e' from
    ⟨h.1, settled_of_parts (h.1.typed hrun hp.staged) h.2⟩
  rw [poised_located] at hp
  rw [yields_located]
  cases hc with
  | literal v loc => exact ⟨yields_push (.imm v) hS.globals, nofun⟩
  | ident hsrc =>
    exact ⟨yields_push (.place (hdesc.scalar hS hp.limit_le hsrc)) hS.globals, nofun⟩
  | @member _ _ _ slot _ indexTy ic _ harr hrun hint =>
    obtain ⟨hyields, hsettled⟩ := hall .index hrun (hp.append_left .refl) (hS.part hlow .index)
    obtain ⟨hkeeps, hreg⟩ := hyields.popIndex
    have hcode : ic ++ Code.ofInstrs [.pop ix, .push (slot.operand (some .ix))] =
        (ic ++ Code.ofInstrs [.pop ix]) ++ Code.ofInstrs [.push (slot.operand (some .ix))] := by
      simp
    rw [hcode]
    have hplace := hdesc.element (hp.limit_le.trans (le_slots_walk _)) harr hreg hint
    refine ⟨hkeeps.yields (yields_push (.place hplace) hS.globals), fun e' hpart => ?_⟩
    cases hpart with
    | index => exact hsettled
  | binary hop hl hr hty =>
    exact yields_of_binary hS (.binary hop hl hr hty) hp hlow (hall .left) (hall .right)
  | and hl hr hty => exact yields_of_binary hS (.and hl hr hty) hp hlow (hall .left) (hall .right)
  | or hl hr hty => exact yields_of_binary hS (.or hl hr hty) hp hlow (hall .left) (hall .right)
  | step hop hstep hty =>
    obtain ⟨rfl, hnumber⟩ := number_of_step hop hty
    obtain ⟨hkeeps, hplace, hparts⟩ := keeps_of_stepped hS hdesc hop hstep (hp.append_left .refl)
      hlow fun _ _ _ he => hall (.stepIndex he)
    exact ⟨hkeeps.yields (yields_changeCode hS hnumber hplace (staged_append.mp hp.staged).2),
      hparts⟩
  | unary hop harg hty =>
    obtain ⟨hyields, hsettled⟩ :=
      hall .argument harg (hp.append_left .refl) (hS.part hlow (.operand hop))
    refine ⟨yields_unaryCode hop hty hp.staged hyields, fun e' hpart => ?_⟩
    cases hpart with
    | operand _ => exact hsettled
    | stepIndex hstep => cases hop.symm.trans hstep
  | assign hassign =>
    obtain ⟨hkeeps, hplace, hparts⟩ := keeps_of_assigned hS hdesc hassign (hp.append_left .refl)
      hlow (fun _ _ _ he => hall (.placeIndex he)) (hall .assigned)
    exact ⟨hkeeps.yields (yields_push (.place hplace) hS.globals), hparts⟩
  | call hcall => exact accepted_of_called hS hdesc hcall hp hlow fun _ ha => hall (.passed ha)

/-- **The code of an expression that is evaluated for its effect leaves the stack as it was.** -/
theorem keeps_of_lowerEffect (hS : S.Faithful) (hdesc : S.Describes f limit scope) {code : Code}
    (hrun : lowerEffect fn scope e s = .ok (code, s')) (hp : S.Poised f limit s' t addr code)
    (hlow : (S.header f).lowers false ⟨fn, scope, s, e, addr⟩) :
    S.Keeps f t addr code ∧ (∀ e', ExprPart ⟨fn, scope, s, e, addr⟩ e' → S.Settled f e') ∧
      (hasEffect e = false → S.Settled f ⟨fn, scope, s, e, addr⟩) := by
  have hall (e : Expr) : S.Types f limit fn scope e := types_of_lower hS hdesc fn e
  cases effected_of_lowerEffect hrun with
  | assign hassign =>
    obtain ⟨hkeeps, -, hparts⟩ :=
      keeps_of_assigned hS hdesc hassign hp hlow (fun _ index _ _ => hall index) (hall _)
    exact ⟨hkeeps, hparts, fun h => by cases h⟩
  | call hcall =>
    obtain ⟨hkeeps, hparts⟩ := accepted_of_called hS hdesc hcall hp hlow fun e _ => hall e
    exact ⟨hkeeps, hparts, fun h => by cases h⟩
  | step hop hstep hty =>
    obtain ⟨rfl, hnumber⟩ := number_of_step hop hty
    obtain ⟨hkeeps, hplace, hparts⟩ :=
      keeps_of_stepped hS hdesc hop hstep (hp.append_left .refl) hlow fun _ index _ _ => hall index
    exact ⟨hkeeps.append (keeps_changeCode hnumber hplace), hparts,
      fun h => by cases hop.symm.trans h⟩
  | value heffect hvalue =>
    obtain ⟨hyields, hsettled⟩ := hall e hvalue (hp.append_left .refl) (hS.dropped hlow heffect)
    exact ⟨(hyields.pop .r0).1, fun _ => hsettled.part, fun _ => hsettled⟩

end Stepwise.TypedSetting
