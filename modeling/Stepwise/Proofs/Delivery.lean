import Mathlib
import Stepwise.Proofs.CallChain
import Stepwise.Proofs.InternalErrors
import Stepwise.Proofs.StraightCode
import Stepwise.Proofs.TypedMemory

/-!
# One conversion on every path

A value comes to a slot of another type on many paths: a literal is converted by the compiler and
then pushed or moved, a variable or a computed value is converted by the move into the slot, and a
value that is passed or returned goes through a scratch cell. All of them deliver the value of
`coerce`, in every state of the machine.

Whether a passed value goes through a scratch cell depends on the static type of its expression. An
index outside of its array may give a value of another type, which is then passed as it is.

## Main definitions

* `Lowering.Stores`: code that stores a value, whatever the form of its expression
* `Lowering.Hands`: code that pushes a value to be passed or returned

## Main results

* `stores_of_stored`, `hands_of_valued`: the code of an expression for a slot of a given type
* `conversions_agree`: all paths deliver the same value
-/

namespace Stepwise

open Lowering

/-- The state after values were popped into registers. -/
def State.popped (s : State) (rest : Array Value) (registers : Registers) : State :=
  { s with stack := rest, registers := registers }

namespace Lowering

open Snippet

variable {fn : String} {scope : Scope} {ty : Ty} {v w : Value} {e : Expr} {supply supply' : Supply}
  {code : Code} {slot : Slot} {index : Option Reg}

/-- Code that stores the value of an expression into a slot of type `ty` leaves `w` there: if the
expression is the literal `v`, if it is a variable that holds `v`, and if its own code has pushed
`v`. -/
structure Stores (fn : String) (scope : Scope) (ty : Ty) (v w : Value) (e : Expr) (supply : Supply)
    (code : Code) (slot : Slot) (index : Option Reg) : Prop where
  literal : ∀ loc, e = .literal v loc → ∀ frame (s : State) base k old,
    s.Finds frame slot index base k old → old.ty = ty → code.Turns frame s (s.setSlot base k w)
  ident : ∀ name loc x, e = .ident name loc → scope.lookup? name = some (.variable x) →
    ∀ frame (s : State) base k base' k' old, s.Finds frame x.slot none base' k' v →
      s.Finds frame slot index base k old → old.ty = ty → code.Turns frame s (s.setSlot base k w)
  computed : isImmediate e = false → ∃ c found s' tail,
    lower fn scope e supply = .ok ((c, found), s') ∧ code = c ++ tail ∧
    ∀ frame (s : State) (rest : Array Value) base k old, s.stack = rest.push v →
      (s.popped rest (s.registers.set .r0 v)).Finds frame slot index base k old → old.ty = ty →
      tail.Turns frame s ((s.popped rest (s.registers.set .r0 v)).setSlot base k w)

/-- Code that pushes the value of an expression for a slot of type `ty` pushes `w`: if the
expression is the literal `v`, and if its own code has pushed `v`. In the second case `v` has the
static type of the expression or that type differs from `ty`, and the scratch cell of `ty` has a
value of its type. -/
structure Hands (fn : String) (scope : Scope) (ty : Ty) (v w : Value) (e : Expr) (supply : Supply)
    (code : Code) : Prop where
  literal : ∀ loc, e = .literal v loc → ∀ frame s, code.Turns frame s (s.push w)
  computed : (∀ u loc, e ≠ .literal u loc) → ∃ c found s' tail,
    lower fn scope e supply = .ok ((c, found), s') ∧ code = c ++ tail ∧
    (v.ty = found ∨ found ≠ ty → ∀ frame (s : State) (rest : Array Value), s.stack = rest.push v →
      (found ≠ ty → s.GlobalsHold (s'.globals.castCell ty).1 1 ty) →
      ∃ s'', tail.Turns frame s s'' ∧ s''.stack = rest.push w ∧ s''.bp = s.bp ∧
        s''.frames = s.frames)

/-- What is stored is the converted value. -/
theorem stores_of_stored (hw : coerce ty v = .ok w)
    (h : Stored scope (slot.operand index) ty (lower fn scope e) supply e code supply') :
    Stores fn scope ty v w e supply code slot index := by
  -- storing converts once more, which changes nothing
  have hself : coerce ty w = .ok w := ty_of_coerce hw ▸ coerce_self w
  refine ⟨?_, ?_, ?_⟩
  · rintro loc rfl frame s base k old hold rfl
    cases h with
    | literal hw' =>
      cases hw.symm.trans (convertConstant_eq_ok.mp hw').2
      exact turns_store ⟨rfl, rfl, rfl⟩ (settles_imm w) rfl hold hself
    | computed himm => cases himm
  · rintro name loc x rfl hx frame s base k base' k' old hsrc hold rfl
    cases h with
    | ident hoperand =>
      obtain ⟨x', hx', -, rfl, -⟩ := scalarOperand_eq_ok hoperand
      cases hx.symm.trans hx'
      obtain ⟨offset, hstart, hlocate⟩ := hsrc
      exact turns_store ⟨rfl, rfl, rfl⟩ (settles_slot hstart none)
        (map_eq_ok.mpr ⟨_, hlocate, rfl⟩) hold hw
    | computed himm => cases himm
  · intro himm
    cases h with
    | literal => cases himm
    | ident => cases himm
    | computed _ hlower _ =>
      refine ⟨_, _, _, _, hlower, rfl, ?_⟩
      rintro frame s rest base k old hstack hold rfl
      have hread : (s.popped rest (s.registers.set .r0 v)).read (.reg .r0) = .ok v :=
        congrArg Except.ok (s.registers.get_set_self .r0 v)
      exact (turns_pop hstack).append
        (turns_store ⟨rfl, rfl, rfl⟩ (settles_reg .r0) hread hold hw)

/-- The way through a scratch cell converts the value on top of the stack. -/
theorem turns_throughCell {found : Ty} {o : Nat} {s : State} {frame : FrameLayout}
    {rest : Array Value} (hw : coerce ty v = .ok w) (hstack : s.stack = rest.push v)
    (hcell : s.GlobalsHold o 1 ty) :
    (throughCell ((Slot.global o).operand none) found ty).Turns frame s
      (((s.popped rest (s.registers.set .r0 v)).setSlot .global o w).push w) := by
  obtain ⟨old, hold, rfl⟩ := hcell 0 Nat.one_pos
  rw [Nat.add_zero] at hold
  have hfinds : (s.popped rest (s.registers.set .r0 v)).Finds frame (.global o) none .global o old :=
    State.finds_of_region rfl (Int.zero_add _) hold
  have hread : (s.popped rest (s.registers.set .r0 v)).read (.reg .r0) = .ok v :=
    congrArg Except.ok (s.registers.get_set_self .r0 v)
  obtain ⟨cell, hcell, hwrite, hread'⟩ := hfinds.write hw
  exact (turns_pop hstack).append ((turns_mov ⟨rfl, rfl, rfl⟩ hcell (settles_reg .r0) hread
    hwrite).append (turns_push ⟨rfl, rfl, rfl⟩ hcell hread'))

/-- What is passed or returned is the converted value. -/
theorem hands_of_valueFor (hw : coerce ty v = .ok w)
    (h : valueFor ty e (lower fn scope e) supply = .ok (code, supply')) :
    Hands fn scope ty v w e supply code := by
  refine ⟨?_, ?_⟩
  · rintro loc rfl frame s
    simp only [valueFor, stateT_bind_eq_ok, stateT_lift_eq_ok, stateT_pure_eq_ok] at h
    obtain ⟨_, _, ⟨w', hw', ⟨⟩⟩, ⟨⟩⟩ := h
    cases hw.symm.trans (convertConstant_eq_ok.mp hw').2
    exact (turns_push ⟨rfl, rfl, rfl⟩ (settles_imm w) rfl).located
  · intro hne
    cases valued_of_valueFor h with
    | literal => exact absurd rfl (hne _ _)
    | same hlower _ =>
      refine ⟨_, _, _, [], hlower, (List.append_nil _).symm, ?_⟩
      intro htype frame s rest hstack _
      -- nothing is converted, so the value has the type already
      obtain rfl : v.ty = ty := htype.resolve_right fun hne => hne rfl
      cases hw.symm.trans (coerce_self v)
      exact ⟨s, .nil, hstack, rfl, rfl⟩
    | converted hlower _ hfound =>
      refine ⟨_, _, _, _, hlower, rfl, ?_⟩
      intro _ frame s rest hstack hcell
      exact ⟨_, turns_throughCell hw hstack (hcell hfound), rfl, rfl, rfl⟩

/-- The last code of some arguments is that of the first one. -/
theorem lowerArgs_cons_eq_ok {arg : Expr} {args : List Expr} {params : List Ty}
    (h : lowerArgs fn scope (arg :: args) (ty :: params) supply = .ok (code, supply')) :
    ∃ after s here, lowerArgs fn scope args params supply = .ok (after, s) ∧
      valueFor ty arg (lower fn scope arg) s = .ok (here, supply') ∧ code = after ++ here := by
  simp only [lowerArgs, List.head?_cons, List.tail_cons, stateT_bind_eq_ok, stateT_pure_eq_ok] at h
  obtain ⟨after, s, hafter, here, s', hhere, ⟨⟩⟩ := h
  exact ⟨after, s, here, hafter, hhere, rfl⟩

variable {d d' : Draft} {loc : Location} {site : Site}

theorem lowerReturn_eq_ok (h : lowerReturn site (some e) loc d = .ok (code, d')) :
    ∃ here s, valueFor site.ret e (lower site.fn d.scope e) d.supply = .ok (here, s) ∧
      code = here ++ Code.ofInstrs [.pop rv, .ret] := by
  simp only [lowerReturn] at h
  split at h
  · simp [stateT_lift_eq_ok, at_ne_ok] at h
  · simp only [stateT_bind_eq_ok, stateT_pure_eq_ok, ofLower_eq_ok] at h
    obtain ⟨_, _, ⟨_, s, hhere, ⟨⟩⟩, ⟨⟩⟩ := h
    exact ⟨_, s, hhere, rfl⟩

/-! ## Declarations and assignments -/

/-- A literal that initializes a variable at the top level of a body is pushed into its slot. -/
theorem turns_of_declared {decl : Declaration} {dr : Declarator} (hw : coerce decl.ty v = .ok w)
    (h : Declared site decl d dr code d') (hscalar : decl.isArray = false)
    (hn : site.nested = false) (hinit : dr.initializer = some (.literal v loc))
    (frame : FrameLayout) (s : State) : code.Turns frame s (s.push w) := by
  cases h with
  | array harray => exact absurd (hscalar.symm.trans harray) Bool.false_ne_true
  | scalar _ hinitial _ =>
    cases hinitial with
    | default hnone => cases hinit.symm.trans hnone
    | constant hi hw' =>
      cases hinit.symm.trans hi
      cases hw.symm.trans (convertConstant_eq_ok.mp hw').2
      rw [hn, if_neg Bool.false_ne_true]
      exact (turns_push ⟨rfl, rfl, rfl⟩ (settles_imm w) rfl).located
    | computed hi hne =>
      cases hinit.symm.trans hi
      exact absurd rfl (hne _ _)

/-- The slot on top of the stack is that of the variable, if all slots before it are there. -/
theorem finds_of_declared {decl : Declaration} {dr : Declarator}
    (h : Declared site decl d dr code d') (hscalar : decl.isArray = false) {frame : FrameLayout}
    (hext : d'.frame.Extends frame) {s : State} (hsp : s.sp = s.bp + d.frame.next) :
    (s.push w).Finds frame (newSlot d dr) none .frame s.sp w := by
  cases h with
  | array harray => exact absurd (hscalar.symm.trans harray) Bool.false_ne_true
  | scalar =>
    have hentry := hext.entries (d.frame.get?_addLocal dr.name decl.ty none)
    have hstart : (newSlot d dr).start? frame = some (.frame, (d.frame.next : Int)) := by
      simp [newSlot, Slot.start?, FrameLayout.offset?, hentry]
    refine State.finds_of_region hstart ?_ Array.getElem?_push_size
    rw [hsp, Nat.cast_add]
    rfl

/-- Any other initializer is stored into the slot, which is reserved before. -/
theorem stores_of_declared {decl : Declaration} {dr : Declarator} (hw : coerce decl.ty v = .ok w)
    (h : Declared site decl d dr code d') (hscalar : decl.isArray = false)
    (hinit : dr.initializer = some e) (hne : site.nested = true ∨ ∀ u loc, e ≠ .literal u loc) :
    ∃ slots store, code = Code.located dr.loc (slots ++ store) ∧
      (site.nested = true → slots = []) ∧
      Stores site.fn d.scope decl.ty v w e d.supply store (newSlot d dr) none := by
  cases h with
  | array harray => exact absurd (hscalar.symm.trans harray) Bool.false_ne_true
  | scalar _ hinitial _ =>
    cases hinitial with
    | default hnone => cases hinit.symm.trans hnone
    | constant hi hw' =>
      cases hinit.symm.trans hi
      have hn : site.nested = true := hne.resolve_right fun hne => hne _ _ rfl
      rw [hn, if_pos rfl]
      exact ⟨[], _, rfl, fun _ => rfl, stores_of_stored hw (.literal hw')⟩
    | computed hi _ hstored =>
      cases hinit.symm.trans hi
      by_cases hn : site.nested = true
      · rw [if_pos hn]
        exact ⟨[], _, rfl, fun _ => rfl, stores_of_stored hw hstored⟩
      · rw [if_neg hn]
        exact ⟨_, _, rfl, fun h => absurd h hn, stores_of_stored hw hstored⟩

/-- The code that pushes the value of an assignment, if it is needed. -/
def backCode (wantValue : Bool) (dest : Operand) : Code :=
  if wantValue then Code.ofInstrs [.push dest] else []

/-- An assignment to a variable stores into its slot. -/
theorem stores_of_assignment {name : String} {x : Variable} {t : Ty} {wantValue : Bool}
    (hw : coerce x.ty v = .ok w) (hx : scope.lookup? name = some (.variable x))
    (h : assignment scope (.ident name loc) e (lowerIndex fn scope (.ident name loc))
      (lower fn scope e) wantValue supply = .ok ((code, t), supply')) :
    ∃ store, code = store ++ backCode wantValue (x.slot.operand none) ∧
      Stores fn scope x.ty v w e supply store x.slot none := by
  obtain ⟨store, dest, hassigned, rfl⟩ := assigned_of_assignment h
  cases hassigned with
  | scalar hoperand hstored =>
    obtain ⟨x', hx', -, rfl, rfl⟩ := scalarOperand_eq_ok hoperand
    cases hx.symm.trans hx'
    exact ⟨store, rfl, stores_of_stored hw hstored⟩

/-- The code that stores a value into an element of an array, when the code of its index and then
its own code have pushed theirs. -/
theorem turns_element {frame : FrameLayout} {s : State} {rest : Array Value} {j old : Value}
    {base : Base} {k : Nat} (hstack : s.stack = (rest.push j).push v)
    (hold : (s.popped rest ((s.registers.set .r0 v).set .ix j)).Finds frame slot (some .ix) base k
      old) (hw : coerce old.ty v = .ok w) :
    (Code.ofInstrs [.pop r0, .pop ix, .mov (slot.operand (some .ix)) r0]).Turns frame s
      ((s.popped rest ((s.registers.set .r0 v).set .ix j)).setSlot base k w) := by
  have hread : (s.popped rest ((s.registers.set .r0 v).set .ix j)).read (.reg .r0) = .ok v := by
    refine congrArg Except.ok ?_
    rw [State.popped, Registers.get_set_of_ne _ (by decide), Registers.get_set_self]
  have hpop : Code.Turns frame [.instr (.pop (.reg .r0))] s
      (s.popped (rest.push j) (s.registers.set .r0 v)) := turns_pop hstack
  have hpop' : Code.Turns frame [.instr (.pop (.reg .ix))]
      (s.popped (rest.push j) (s.registers.set .r0 v))
      (s.popped rest ((s.registers.set .r0 v).set .ix j)) := turns_pop rfl
  exact hpop.append (hpop'.append (turns_store ⟨rfl, rfl, rfl⟩ (settles_reg .r0) hread hold hw))

/-- An assignment to an element of an array stores into it. -/
theorem stores_of_element {name : String} {loc' : Location} {i : Expr} {x : Variable} {t : Ty}
    {wantValue : Bool} (hw : coerce x.ty v = .ok w) (hx : scope.lookup? name = some (.variable x))
    (h : assignment scope (.member (.ident name loc) i loc') e
      (lowerIndex fn scope (.member (.ident name loc) i loc')) (lower fn scope e) wantValue supply =
        .ok ((code, t), supply')) :
    ∃ indexCode indexTy s₁, lower fn scope i supply = .ok ((indexCode, indexTy), s₁) ∧
      (isImmediate e = true → ∃ store, code = indexCode ++ Code.ofInstrs [.pop ix] ++ store ++
        backCode wantValue (x.slot.operand (some .ix)) ∧
        Stores fn scope x.ty v w e s₁ store x.slot (some .ix)) ∧
      (isImmediate e = false → ∃ value found s₂ tail,
        lower fn scope e s₁ = .ok ((value, found), s₂) ∧
        code = indexCode ++ value ++ tail ++ backCode wantValue (x.slot.operand (some .ix)) ∧
        ∀ frame (s : State) (rest : Array Value) j base k old, s.stack = (rest.push j).push v →
          (s.popped rest ((s.registers.set .r0 v).set .ix j)).Finds frame x.slot (some .ix) base k
            old → old.ty = x.ty →
          tail.Turns frame s
            ((s.popped rest ((s.registers.set .r0 v).set .ix j)).setSlot base k w)) := by
  obtain ⟨store, dest, hassigned, rfl⟩ := assigned_of_assignment h
  -- a constant or a variable is stored after the index is popped, all else is computed before
  cases hassigned with
  | immediate hslot hindex _ himm hstored =>
    obtain ⟨_, _, x', ⟨⟩, hx', -, rfl, rfl⟩ := arraySlot_eq_ok hslot
    cases hx.symm.trans hx'
    refine ⟨_, _, _, hindex, fun _ => ⟨_, rfl, stores_of_stored hw hstored⟩, ?_⟩
    intro hcomputed
    exact absurd (himm.symm.trans hcomputed) (by decide)
  | computed hslot hindex _ himm hvalue _ =>
    obtain ⟨_, _, x', ⟨⟩, hx', -, rfl, rfl⟩ := arraySlot_eq_ok hslot
    cases hx.symm.trans hx'
    refine ⟨_, _, _, hindex, fun h => absurd (himm.symm.trans h) (by decide), ?_⟩
    intro _
    refine ⟨_, _, _, _, hvalue, rfl, ?_⟩
    rintro frame s rest j base k old hstack hold hty
    exact turns_element hstack hold (hty ▸ hw)

end Lowering

/-- The compiler never fails over a conversion. -/
theorem compile_ne_coercion (hosts : List HostDecl) (program : Program) (cause : ConversionError)
    (loc : Location) : compile hosts program ≠ .error (.mistake (.coercion cause) loc) := by
  intro h
  rw [Compiler.compile_eq_bind] at h
  rcases bind_eq_error.mp h with h | ⟨p, -, h⟩
  · obtain ⟨_, _, ⟨⟩, hcoercion⟩ := Compiler.onlyMistakes_translate hosts program _ h
    cases hcoercion
  · cases hlink : Compiler.link p with
    | ok image => simp [hlink, liftInternal] at h
    | error e => simp [hlink, liftInternal] at h

/-- **All conversions agree.** A value that may be assigned to a type is converted to a value `w` of
that type, which is the value itself if it has the type. On every path, whatever the form of the
expression, exactly `w` ends up in the slot or is pushed: in declarations at the top level of a body
and below it, in assignments to variables and to elements of arrays, in arguments and in returns. A
computed value that is passed or returned must have the static type of its expression, unless that
type is converted anyway. The scratch cells keep their types in every run, and no program is refused
over a conversion. -/
theorem conversions_agree {ty : Ty} {v : Value} (hv : accepts ty v = true) :
    ∃ w, coerce ty v = .ok w ∧ w.ty = ty ∧ (v.ty = ty → w = v) ∧
      (∀ site decl dr d code d', decl.ty = ty → decl.isArray = false →
        declareLocals site decl [dr] d = .ok (code, d') →
        (∀ loc, dr.initializer = some (.literal v loc) → site.nested = false → ∀ frame s,
          code.Turns frame s (s.push w) ∧
          (d'.frame.Extends frame → s.sp = s.bp + d.frame.next →
            (s.push w).Finds frame (newSlot d dr) none .frame s.sp w)) ∧
        ∀ e, dr.initializer = some e → (site.nested = true ∨ ∀ u loc, e ≠ .literal u loc) →
          ∃ slots store, code = Code.located dr.loc (slots ++ store) ∧
            (site.nested = true → slots = []) ∧
            Stores site.fn d.scope ty v w e d.supply store (newSlot d dr) none) ∧
      (∀ fn scope name loc e want x supply code t supply',
        scope.lookup? name = some (.variable x) → x.ty = ty →
        assignment scope (.ident name loc) e (lowerIndex fn scope (.ident name loc))
          (lower fn scope e) want supply = .ok ((code, t), supply') →
        ∃ store, code = store ++ backCode want (x.slot.operand none) ∧
          Stores fn scope ty v w e supply store x.slot none) ∧
      (∀ fn scope name loc i loc' e want x supply code t supply',
        scope.lookup? name = some (.variable x) → x.ty = ty →
        assignment scope (.member (.ident name loc) i loc') e
          (lowerIndex fn scope (.member (.ident name loc) i loc')) (lower fn scope e) want supply =
            .ok ((code, t), supply') →
        ∃ indexCode indexTy s₁, lower fn scope i supply = .ok ((indexCode, indexTy), s₁) ∧
          (isImmediate e = true → ∃ store, code = indexCode ++ Code.ofInstrs [.pop Snippet.ix] ++
            store ++ backCode want (x.slot.operand (some .ix)) ∧
            Stores fn scope ty v w e s₁ store x.slot (some .ix)) ∧
          (isImmediate e = false → ∃ value found s₂ tail,
            lower fn scope e s₁ = .ok ((value, found), s₂) ∧
            code = indexCode ++ value ++ tail ++ backCode want (x.slot.operand (some .ix)) ∧
            ∀ frame (s : State) (rest : Array Value) j base k old, s.stack = (rest.push j).push v →
              (s.popped rest ((s.registers.set .r0 v).set .ix j)).Finds frame x.slot (some .ix)
                base k old → old.ty = ty →
              tail.Turns frame s
                ((s.popped rest ((s.registers.set .r0 v).set .ix j)).setSlot base k w))) ∧
      (∀ fn scope arg args params supply code supply',
        lowerArgs fn scope (arg :: args) (ty :: params) supply = .ok (code, supply') →
        ∃ after s here, lowerArgs fn scope args params supply = .ok (after, s) ∧
          code = after ++ here ∧ Hands fn scope ty v w arg s here) ∧
      (∀ site e loc d code d', site.ret = ty →
        lowerReturn site (some e) loc d = .ok (code, d') →
        ∃ here, code = here ++ Code.ofInstrs [.pop Snippet.rv, .ret] ∧
          Hands site.fn d.scope ty v w e d.supply here) ∧
      (∀ {σ : Type} {hosts : List HostDecl} {program : Program} {image : Image}
        (c : Compiler.Compilation hosts program image), image.Addressable →
        ∀ {m₀ m : Machine σ} {n : Nat}, m₀.Starts image → Machine.Steps n m₀ m →
        ∀ o, (ty, o) ∈ c.progress.globals.casts → m.state.GlobalsHold o 1 ty) ∧
      ∀ hosts program cause loc, compile hosts program ≠ .error (.mistake (.coercion cause) loc) := by
  -- one conversion gives the value; every path is then shown to deliver it
  obtain ⟨w, hw⟩ := exists_coerce hv
  refine ⟨w, hw, ty_of_coerce hw, ?_, ?_, ?_, ?_, ?_, ?_, ?_, compile_ne_coercion⟩
  · rintro rfl
    cases hw.symm.trans (coerce_self v)
    rfl
  · rintro site decl dr d code d' rfl hscalar h
    obtain ⟨here, d₁, after, hdeclared, hafter, rfl⟩ := declareLocals_cons_eq_ok h
    cases hafter
    rw [List.append_nil]
    refine ⟨?_, fun e hinit hne => stores_of_declared hw hdeclared hscalar hinit hne⟩
    intro loc hinit hn frame s
    refine ⟨turns_of_declared hw hdeclared hscalar hn hinit frame s, ?_⟩
    intro hext hsp
    exact finds_of_declared hdeclared hscalar hext hsp
  · rintro fn scope name loc e want x supply code t supply' hx rfl h
    exact stores_of_assignment hw hx h
  · rintro fn scope name loc i loc' e want x supply code t supply' hx rfl h
    exact stores_of_element hw hx h
  · intro fn scope arg args params supply code supply' h
    obtain ⟨after, s, here, hafter, hhere, hcode⟩ := lowerArgs_cons_eq_ok h
    exact ⟨after, s, here, hafter, hcode, hands_of_valueFor hw hhere⟩
  · rintro site e loc d code d' rfl h
    obtain ⟨here, s, hhere, hcode⟩ := lowerReturn_eq_ok h
    exact ⟨here, hcode, hands_of_valueFor hw hhere⟩
  · intro σ hosts program image c haddr m₀ m n hstart hrun o hcell
    obtain ⟨-, hs⟩ := c.steady_of_steps haddr hstart hrun
    exact globalsHold_of_block hs.globals (c.sound.cell hcell)

/-- A return of the literal `true` from a function whose result is a number. -/
theorem conversions_agree_true :
    accepts .int (.bool true) = true ∧ ∃ here,
      lowerReturn ⟨"f", .int, none, false⟩ (some (Build.lit (.bool true))) .unknown
        ⟨⟨0, .empty⟩, .empty, [], .root⟩ =
          .ok (here ++ Code.ofInstrs [.pop Snippet.rv, .ret], ⟨⟨0, .empty⟩, .empty, [], .root⟩) ∧
      ∀ frame s, here.Turns frame s (s.push (.int 1)) := by
  have hv : accepts .int (.bool true) = true := rfl
  have hlower : lowerReturn ⟨"f", .int, none, false⟩ (some (Build.lit (.bool true))) .unknown
      ⟨⟨0, .empty⟩, .empty, [], .root⟩ =
        .ok (Code.located .unknown (Code.ofInstrs [.push (.imm (.int 1))]) ++
          Code.ofInstrs [.pop Snippet.rv, .ret], ⟨⟨0, .empty⟩, .empty, [], .root⟩) := rfl
  obtain ⟨w, hw, -, -, -, -, -, -, hret, -, -⟩ := conversions_agree hv
  cases hw
  obtain ⟨here, hcode, hhands⟩ := hret _ _ _ _ _ _ rfl hlower
  rw [hcode] at hlower
  exact ⟨hv, here, hlower, hhands.literal _ rfl⟩

/-- A program that passes a number, and that has a truth value behind an array of one number. -/
def passing (e : Expr) : Program :=
  ⟨[Build.array .int "a" 1, Build.var .boolean "b" (some (Build.lit (.bool true))),
    Build.func "g" [Build.param .int "x"] .void [],
    Build.func "main" [] .void [Build.expr (Build.call "g" [e])]]⟩

/-- The element behind the end of the array. -/
def behindEnd : Expr := Build.member "a" (Build.lit (.int 1))

/-- The program that passes an expression, after so many steps. -/
def passingAfter (e : Expr) (k : Nat) : Machine Unit × Option Fault :=
  Machine.runWhile (fun _ => true) k (.load (imageOf [] (passing e)) ())

/-- The first argument of the innermost call. -/
def State.firstArgument? (s : State) : Option Value := s.slot? .frame (s.bp - 1)

/-- **A value outside of an array is passed as it is.** The element behind the end of the array is
`true` when the call at address 6 comes, and the function at address 2 gets `true` for a number. The
literal `true` in its place is converted. -/
theorem element_passed_unconverted :
    compile [] (passing behindEnd) = .ok (imageOf [] (passing behindEnd)) ∧
    compile [] (passing (Build.lit (.bool true))) =
      .ok (imageOf [] (passing (Build.lit (.bool true)))) ∧
    (∃ (n n' : Nat) (m m' : Machine Unit),
      Machine.Steps n (.load (imageOf [] (passing behindEnd)) ()) m ∧ m.state.pc = 6 ∧
      m.state.stack.back? = some (.bool true) ∧
      Machine.Steps n' (.load (imageOf [] (passing behindEnd)) ()) m' ∧ m'.state.pc = 2 ∧
      m'.state.firstArgument? = some (.bool true)) ∧
    ∃ (n : Nat) (m : Machine Unit),
      Machine.Steps n (.load (imageOf [] (passing (Build.lit (.bool true)))) ()) m ∧
      m.state.pc = 2 ∧ m.state.firstArgument? = some (.int 1) := by
  have hevaluated : (passingAfter behindEnd 4).2 = none ∧
      (passingAfter behindEnd 4).1.state.pc = 6 ∧
      (passingAfter behindEnd 4).1.state.stack.back? = some (.bool true) := by decide +kernel
  have hpassed : (passingAfter behindEnd 5).2 = none ∧
      (passingAfter behindEnd 5).1.state.pc = 2 ∧
      (passingAfter behindEnd 5).1.state.firstArgument? = some (.bool true) := by decide +kernel
  have hliteral : (passingAfter (Build.lit (.bool true)) 3).2 = none ∧
      (passingAfter (Build.lit (.bool true)) 3).1.state.pc = 2 ∧
      (passingAfter (Build.lit (.bool true)) 3).1.state.firstArgument? = some (.int 1) := by
    decide +kernel
  have hcompile : compile [] (passing behindEnd) = .ok (imageOf [] (passing behindEnd)) :=
    compile_eq_ok_imageOf (by decide +kernel)
  have hcompile' : compile [] (passing (Build.lit (.bool true))) =
      .ok (imageOf [] (passing (Build.lit (.bool true)))) :=
    compile_eq_ok_imageOf (by decide +kernel)
  unfold passingAfter at hevaluated hpassed hliteral
  generalize imageOf [] (passing behindEnd) = image at *
  generalize imageOf [] (passing (Build.lit (.bool true))) = image' at *
  obtain ⟨n, hrun⟩ := Machine.steps_of_runWhile hevaluated.1
  obtain ⟨n', hrun'⟩ := Machine.steps_of_runWhile hpassed.1
  obtain ⟨n'', hrun''⟩ := Machine.steps_of_runWhile hliteral.1
  exact ⟨hcompile, hcompile', ⟨n, n', _, _, hrun, hevaluated.2.1, hevaluated.2.2, hrun', hpassed.2⟩,
    n'', _, hrun'', hliteral.2⟩

end Stepwise
