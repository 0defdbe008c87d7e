import Mathlib
import Stepwise.Proofs.Folding
import Stepwise.Proofs.StackDiscipline
import Stepwise.Source.Build

/-!
# Constants on the machine

What is proved of constants in a linked program is carried over to any machine that has their
assembled code at its program counter, whatever its host and its hooks do: the code of a constant
calls no function of the host, so the machine runs it as a machine without a host would.

## Main definitions

* `Machine.isolated`: the machine without its host
* `Machine.AtCode`: assembled code stands at the program counter

## Main results

* `constant_folding`: folding agrees with execution
-/

namespace Stepwise

open Lowering Snippet

/-! ## Machines without a host -/

namespace Machine

variable {σ : Type}

/-- The machine without host functions, hooks and a world. -/
def isolated (m : Machine σ) : Machine Unit := ⟨m.image, m.state, .empty, [], ()⟩

/-- A transition makes the same state without a host, unless it asks for a host function. -/
theorem transition_eq_isolated (hosts : Table (HostFunction σ)) (i : Instr) (op : Operation)
    (s : State) (w : σ) :
    transition hosts i op s w = (fun r => (r.1, w)) <$> transition .empty i op s () ∨
      ∃ name, transition .empty i op s () = .error (.unregistered name) := by
  -- only the case of a host call looks at the functions of the host
  cases op with
  | compute op dest src => left; simp only [transition, map_bind]; rfl
  | change op dest => left; simp only [transition, map_bind]; rfl
  | move dest src => left; simp only [transition, map_bind]; rfl
  | load dest v => exact .inl rfl
  | push src => left; simp only [transition, map_bind]; rfl
  | pop dest =>
    left
    simp only [transition]
    cases s.stack.back? with
    | none => rfl
    | some v => simp only [map_bind]; rfl
  | jump relative target condition =>
    left
    simp only [transition, map_bind]
    congr 1
    funext taken
    cases taken with
    | false => rfl
    | true => simp only [if_true, map_bind]; rfl
  | call target argc =>
    simp only [transition, bind, Except.bind]
    cases integer i s argc with
    | error e => exact .inl rfl
    | ok n =>
      simp only
      cases argumentCount i n with
      | error e => exact .inl rfl
      | ok argc =>
        by_cases hs : s.stack.size < argc
        · simp only [if_pos hs]
          exact .inl rfl
        · simp only [if_neg hs]
          cases target with
          | host name => exact .inr ⟨name, rfl⟩
          | imm v | reg r | ptr p | var key index | label l =>
            left
            simp only [Functor.map, Except.map]
            split
            · rfl
            · split <;> rfl
  | ret =>
    left
    simp only [transition]
    cases s.frames with
    | nil => rfl
    | cons frame rest => simp only; split <;> rfl
  | nop => exact .inl rfl

theorem executeNext_of_isolated {m : Machine σ} {m₀ : Machine Unit}
    (h : executeNext m.isolated = .ok () m₀) : ∃ m', executeNext m = .ok () m' ∧ m'.isolated = m₀ := by
  obtain ⟨i, op, s, ⟨⟩, hi, hd, ht, rfl⟩ := executeNext_eq_ok_iff.mp h
  rcases transition_eq_isolated m.hosts i op m.state m.world with heq | ⟨name, hname⟩
  · have ht' : transition m.hosts i op m.state m.world = .ok (s, m.world) := by
      rw [heq]
      exact map_eq_ok.mpr ⟨_, ht, rfl⟩
    exact ⟨_, executeNext_eq_ok_iff.mpr ⟨i, op, s, m.world, hi, hd, ht', rfl⟩, rfl⟩
  · cases hname.symm.trans ht

theorem steps_of_isolated {n : Nat} {m : Machine σ} {m₀ : Machine Unit} (h : Steps n m.isolated m₀) :
    ∃ m', Steps n m m' ∧ m'.isolated = m₀ := by
  generalize hm : m.isolated = m₁ at h
  induction h generalizing m with
  | refl => exact ⟨m, .refl m, hm⟩
  | step he _ ih =>
    subst hm
    obtain ⟨m', hm', rfl⟩ := executeNext_of_isolated he
    obtain ⟨m'', hsteps, hend⟩ := ih rfl
    exact ⟨m'', .step hm' hsteps, hend⟩

/-- A fault that does not blame the host is the same with a host. -/
theorem fault_of_isolated {m : Machine σ} {m₀ : Machine Unit} {e : Fault}
    (h : executeNext m.isolated = .error e m₀) (he : ∀ name, e ≠ .unregistered name) :
    executeNext m = .error e m := by
  obtain ⟨-, hfault⟩ := executeNext_eq_error_iff.mp h
  refine executeNext_eq_error_iff.mpr ⟨rfl, ?_⟩
  rcases hfault with hhalted | ⟨i, hi, hd | ⟨op, hd, ht⟩⟩
  · exact .inl hhalted
  · exact .inr ⟨i, hi, .inl hd⟩
  · refine .inr ⟨i, hi, .inr ⟨op, hd, ?_⟩⟩
    rcases transition_eq_isolated m.hosts i op m.state m.world with heq | ⟨name, hname⟩
    · rw [heq, show transition .empty i op m.state () = .error e from ht]
      rfl
    · cases hname.symm.trans ht
      exact absurd rfl (he name)

end Machine

/-! ## Assembled code -/

namespace Machine

variable {σ : Type}

/-- The code of a function, its variables in the given frame, has been assembled into the program of
the machine, and stands at the program counter. -/
def AtCode (m : Machine σ) (frame : FrameLayout) (fn : String) (code : Code) : Prop :=
  m.image.Addressable ∧ ∃ pre post resolved, resolveCode frame fn code = .ok resolved ∧
    assemble (pre ++ (resolved ++ post)) = .ok m.image.code.toList ∧ m.state.pc = pre.size

variable {m : Machine σ} {frame : FrameLayout} {fn : String} {code : Code}

/-- A machine at assembled code, without its host, is a machine with a linked program. -/
theorem AtCode.target (h : m.AtCode frame fn code) :
    ∃ T : Target Unit, T.machine = m.isolated ∧ Placed T.program frame m.state.pc code := by
  obtain ⟨hshort, pre, post, resolved, hresolved, hassemble, hpc⟩ := h
  simp only [assemble, bind_eq_ok] at hassemble
  obtain ⟨labels, hlabels, hlink⟩ := hassemble
  have hplaced := placed_of_assemble hlabels hlink rfl hresolved
  have hle : ∀ {l a}, labels.get? l = some a → a ≤ m.isolated.image.code.size := by
    intro l a hl
    have hsize : m.image.code.size = (pre ++ (resolved ++ post)).instrs.length := by
      rw [← Array.length_toList]
      exact length_of_linkFrom hlink
    rcases le_of_collectLabels hlabels hl with hempty | hle
    · cases hempty
    · rw [Nat.zero_add] at hle
      exact hle.trans_eq hsize.symm
  have hnone : ∀ name v, (Table.empty : Table Symbol).get? name ≠ some (.variable v) := by
    rintro name v ⟨⟩
  refine ⟨⟨m.isolated, labels, .empty, .empty, rfl, hshort, hle, GlobalLayout.sound_empty ?_⟩, rfl,
    ?_⟩
  · exact fun name v => hnone name v
  · rw [hpc]
    simpa [Target.program, isolated] using hplaced

variable {T : Target Unit} {s : State}

/-- A run of the isolated machine is a run of the machine. -/
theorem exists_steps_of_runs {k : Nat} (hT : T.machine = m.isolated) (h : T.Runs k m.state () s ()) :
    ∃ m', Steps k m m' ∧ m'.state = s.after (m.state.steps + k) := by
  have hsteps := h m.state.steps
  rw [hT] at hsteps
  obtain ⟨m', hm', hend⟩ := steps_of_isolated (m := m) hsteps
  exact ⟨m', hm', congrArg Machine.state hend⟩

theorem exists_fault_of_breaks {cause : ArithmeticError} (hT : T.machine = m.isolated)
    (h : T.Breaks m.state () (.arithmetic cause)) :
    ∃ n m', Steps n m m' ∧ executeNext m' = .error (.arithmetic cause) m' := by
  obtain ⟨k, s, hrun, hfail⟩ := h
  have hsteps := hrun m.state.steps
  rw [hT] at hsteps
  obtain ⟨m', hm', hend⟩ := steps_of_isolated (m := m) hsteps
  refine ⟨k, m', hm', ?_⟩
  have hfault := hfail (m.state.steps + k)
  rw [hT, ← hend] at hfault
  exact fault_of_isolated hfault (by rintro name ⟨⟩)

end Machine

/-! ## Local declarations -/

section Declarations

variable {scope scope' : Scope} {fn : String} {e : Expr} {ty : Ty} {u v : Value} {s s' : Supply}
  {dest : Operand}

/-- A constant of a type that may be assigned is stored. -/
theorem storeInto_constant (hs : Folds scope) (ha : Agrees scope scope' e)
    (hu : constant scope e = .ok u) {loc : Location} (hv : convertConstant ty u loc = .ok v)
    (hlit : ∀ w loc', e ≠ .literal w loc') (s : Supply) :
    ∃ code s', storeInto scope' dest ty e (lower fn scope' e) s = .ok (code, s') := by
  obtain ⟨haccepts, -⟩ := convertConstant_eq_ok.mp hv
  have hexpect (loc : Location) : expect ty u.ty loc = .ok () := expect_eq_ok.mpr haccepts
  obtain ⟨code, n, hlower⟩ := lower_constant hs ha hu fn s
  cases e with
  | literal w loc' => exact absurd rfl (hlit w loc')
  | ident name loc' =>
    obtain ⟨x, hx, harray, hvalue⟩ := constant_ident hu
    have hx' : scope'.lookup? name = some (.variable x) := by rw [ha name (.ident loc'), hx]
    refine ⟨Code.ofInstrs [.mov dest (x.slot.operand none)], s, ?_⟩
    simp only [storeInto, stateT_bind_eq_ok, stateT_lift_eq_ok, stateT_pure_eq_ok]
    refine ⟨_, _, ⟨_, scalarOperand_of_lookup? hx' harray, rfl⟩, _, _, ⟨(), ?_, rfl⟩, rfl⟩
    rw [← (hs name x u hx hvalue).1]
    exact hexpect _
  | binary | unary | assign | call | member =>
    refine ⟨code ++ Code.ofInstrs [.pop r0, .mov dest r0], s.withLabels n, ?_⟩
    simp only [storeInto, stateT_bind_eq_ok, stateT_lift_eq_ok, stateT_pure_eq_ok]
    exact ⟨_, _, hlower, _, _, ⟨(), hexpect _, rfl⟩, rfl⟩

theorem exists_scalarCode (site : Site) (ty : Ty) (name : String) (loc : Location) (dest : Operand)
    (initial : Initial) (d : Draft) :
    ∃ code d', scalarCode site ty name loc dest initial d = .ok (code, d') := by
  unfold scalarCode
  split
  · exact ⟨_, _, rfl⟩
  · exact ⟨_, _, rfl⟩

/-- **A local variable with a constant initializer is declared**, if its name is new. -/
theorem lowerStmt_constant (site : Site) {d : Draft} {x : String} {length : Option Nat}
    {loc loc' : Location} (hty : ty ≠ .void) (hs : Folds scope) (ha : Agrees scope d.scope e)
    (hu : constant scope e = .ok u) (hv : convertConstant ty u e.loc = .ok v)
    (hx : d.scope.inner.get? x = none) :
    ∃ code d', lowerStmt site (.declare ⟨ty, false, [⟨x, some e, length, loc⟩], loc'⟩) d =
      .ok (code, d') := by
  let dr : Declarator := ⟨x, some e, length, loc⟩
  have hscalar : ∃ code d', declareScalar site ty dr d = .ok (code, d') := by
    let key := d.frame.freshKey x
    let v' : Variable := ⟨ty, false, none, none, .frame key⟩
    have hdeclare : d.scope.declare x (.variable v') =
        .ok ⟨d.scope.inner.insert x (.variable v'), d.scope.outer⟩ :=
      Scope.declare_eq_ok.mpr ⟨hx, rfl⟩
    -- a literal is folded into the reservation, anything else has code that stores it
    by_cases hlit : ∃ w l, e = .literal w l
    · obtain ⟨w, l, rfl⟩ := hlit
      cases hu
      have hliteral : literalInitial ty dr = .ok (some v) := by
        simp only [literalInitial, dr]
        rw [show convertConstant ty u l = .ok v from hv]
        rfl
      obtain ⟨code, d', hcode⟩ := exists_scalarCode site ty x loc ((Slot.frame key).operand none)
        (.constant v) ⟨d.supply, (d.frame.addLocal x ty none).2, d.reserved, _⟩
      refine ⟨Code.located loc code, d', ?_⟩
      simp only [declareScalar, stateT_bind_eq_ok, stateT_lift_eq_ok]
      refine ⟨_, _, ⟨_, hliteral, rfl⟩, _, _, rfl, ?_⟩
      simp only [stateT_bind_eq_ok, stateT_pure_eq_ok, declareVariable_eq_ok]
      exact ⟨_, _, rfl, _, _, ⟨_, hdeclare, rfl⟩, _, _, hcode, rfl⟩
    · have hne : ∀ w l, e ≠ .literal w l := fun w l h => hlit ⟨w, l, h⟩
      have hliteral : literalInitial ty dr = .ok none := by
        unfold literalInitial
        split
        next w l h =>
          cases h
          exact absurd rfl (hne w l)
        · rfl
      obtain ⟨store, s', hstore⟩ :=
        @storeInto_constant _ _ site.fn e ty u v ((Slot.frame key).operand none) hs ha hu _ hv hne
          d.supply
      obtain ⟨code, d', hcode⟩ := exists_scalarCode site ty x loc ((Slot.frame key).operand none)
        (.computed store) ⟨s', (d.frame.addLocal x ty none).2, d.reserved, _⟩
      refine ⟨Code.located loc code, d', ?_⟩
      simp only [declareScalar, stateT_bind_eq_ok, stateT_lift_eq_ok]
      refine ⟨_, _, ⟨_, hliteral, rfl⟩, _, _, rfl, ?_⟩
      simp only [dr, stateT_bind_eq_ok, stateT_pure_eq_ok, ofLower_eq_ok, declareVariable_eq_ok]
      exact ⟨_, _, ⟨_, _, hstore, rfl⟩, _, _, rfl, _, _, ⟨_, hdeclare, rfl⟩, _, _, hcode, rfl⟩
  obtain ⟨code, d', hcode⟩ := hscalar
  refine ⟨Code.located loc' (code ++ []), d', ?_⟩
  simp only [lowerStmt, stateT_map_eq_ok, lowerDeclaration_eq_ok]
  refine ⟨_, _, ⟨hty, ?_⟩, rfl⟩
  simp only [declareLocals, Bool.false_eq_true, if_false, stateT_bind_eq_ok, stateT_pure_eq_ok]
  exact ⟨_, _, hcode, _, _, rfl, rfl⟩

end Declarations

/-- A store into a slot of the frame converts to the type of the slot. -/
theorem State.write_frame {s : State} {offset : Nat} {old u v : Value}
    (hold : s.stack[s.bp + offset]? = some old) (hv : coerce old.ty u = .ok v) :
    s.write (.ptr ⟨.frame, offset, none⟩) u = .ok (s.setSlot .frame (s.bp + offset) v) := by
  have hindex : (((s.bp : Int) + offset).toNat) = s.bp + offset := by omega
  have hslot : s.slot? .frame ((s.bp : Int) + offset) = some old := by
    rw [slot?, if_pos (by omega), hindex]
    exact hold
  simp [write, locate, indexValue, origin, hslot, hv, liftConversion, bind, Except.bind, hindex]

/-- The slot of a variable that is about to be declared: below the top level it is reserved already,
at the top level it is the next one on the stack. -/
def State.Ready (st : State) (site : Site) (ty : Ty) (offset : Nat) : Prop :=
  if site.nested then ∃ old, st.stack[st.bp + offset]? = some old ∧ old.ty = ty
  else st.stack.size = st.bp + offset

/-- The stack after a variable got its first value. -/
def State.initialized (st : State) (site : Site) (offset : Nat) (v : Value) :
    Array Value :=
  if site.nested then st.stack.setIfInBounds (st.bp + offset) v else st.stack.push v

namespace Target

variable {σ : Type} {T : Target σ} {frame : FrameLayout} {addr : Nat} {st : State} {w : σ}
  {scope scope' : Scope} {fn : String} {e : Expr} {code : Code} {ty : Ty} {s s' : Supply}
  {u v old : Value} {key : String} {offset : Nat} {loc : Location}

/-- The code that stores a constant in a variable of the frame stores its value, converted. -/
theorem runs_stored_constant (hs : Folds scope) (ha : Agrees scope scope' e)
    (hu : constant scope e = .ok u) (hv : convertConstant ty u loc = .ok v)
    (hst : Stored scope' (.var key none) ty (lower fn scope' e) s e code s')
    (hkey : frame.offset? key = some offset) (hold : st.stack[st.bp + offset]? = some old)
    (hty : old.ty = ty) (hp : Placed T.program frame addr code) (hpc : st.pc = addr)
    (hheld : Held scope e st.globals) :
    ∃ k registers, T.Runs k st w { st with
      pc := addr + code.size
      registers := registers
      stack := st.stack.setIfInBounds (st.bp + offset) v } w := by
  obtain ⟨-, hcoerce⟩ := convertConstant_eq_ok.mp hv
  have hsettle (op : OpCode) (pc : Nat) : Operand.settle T.labels frame op pc (.var key none) =
      .ptr ⟨.frame, offset, none⟩ := by
    simp [Operand.settle, hkey]
  -- a literal is converted by the compiler, a variable by the store, all else after it is computed
  cases hst with
  | literal hw =>
    cases hu
    obtain ⟨-, hcoerce'⟩ := convertConstant_eq_ok.mp hw
    cases hcoerce'.symm.trans hcoerce
    have hself : coerce old.ty v = .ok v := by
      rw [hty, ← ty_of_coerce hcoerce]
      exact coerce_self v
    have hwrite := State.write_frame hold hself
    rw [← hsettle .mov addr] at hwrite
    exact ⟨1, st.registers, runs_mov hp.1 ⟨rfl, rfl, rfl⟩ hpc rfl hwrite⟩
  | ident hsrc _ =>
    obtain ⟨x, hx, -, hvalue⟩ := constant_ident hu
    obtain ⟨-, o, ho⟩ := hs _ x u hx hvalue
    obtain ⟨x', hx', -, rfl, -⟩ := scalarOperand_eq_ok hsrc
    rw [ha _ (.ident _), hx] at hx'
    cases hx'
    rw [ho] at hp
    have hread := State.read_global (hheld _ x u o (.ident _) hx hvalue ho)
    have hwrite := State.write_frame hold (hty ▸ hcoerce)
    rw [← hsettle .mov addr] at hwrite
    exact ⟨1, st.registers, runs_mov hp.1 ⟨rfl, rfl, rfl⟩ hpc hread hwrite⟩
  | @computed _ c _ _ _ hl _ =>
    rw [placed_append] at hp
    obtain ⟨hpe, h₀, h₁, -⟩ := hp
    obtain ⟨k, registers, hrun⟩ := runs_constant (w := w) hs ha hu hl hpe hpc hheld
    have hpop := @runs_pop σ T frame (addr + c.size) { st with
      pc := addr + c.size, registers := registers, stack := st.stack.push u } w .r0 u h₀ rfl _ rfl
    have hwrite := @State.write_frame { st with
      pc := addr + c.size + 1, registers := registers.set .r0 u } offset old u v hold (hty ▸ hcoerce)
    rw [← hsettle .mov (addr + c.size + 1)] at hwrite
    have hread : State.read { st with
        pc := addr + c.size + 1, registers := registers.set .r0 u } r0 = .ok u :=
      congrArg Except.ok (Registers.get_set_self _ _ _)
    have hmov := runs_mov (w := w) h₁ ⟨rfl, rfl, rfl⟩ rfl hread hwrite
    have hsize : addr + (c ++ Code.ofInstrs [.pop r0, .mov (.var key none) r0]).size =
        addr + c.size + 1 + 1 := by
      simp [← Nat.add_assoc]
    refine ⟨k + 1 + 1, registers.set .r0 u, ?_⟩
    rw [hsize]
    exact (hrun.trans hpop).trans hmov

/-- **The declaration of a local variable with a constant initializer stores its value**,
converted to the type of the variable. -/
theorem runs_declared_constant {site : Site} {d d' : Draft} {x : String} {length : Option Nat}
    {loc' : Location} (hs : Folds scope) (ha : Agrees scope d.scope e)
    (hu : constant scope e = .ok u) (hv : convertConstant ty u e.loc = .ok v)
    (hl : lowerStmt site (.declare ⟨ty, false, [⟨x, some e, length, loc⟩], loc'⟩) d = .ok (code, d'))
    (hx : d'.frame.Extends frame) (hp : Placed T.program frame addr code) (hpc : st.pc = addr)
    (hheld : Held scope e st.globals) (hready : st.Ready site ty d.frame.next) :
    ∃ k registers, T.Runs k st w { st with
      pc := addr + code.size
      registers := registers
      stack := st.initialized site d.frame.next v } w := by
  obtain ⟨c, rfl, hc⟩ := loweredStmt_of_lowerStmt hl
  rw [placed_located] at hp
  rw [Code.size_located]
  cases hc with
  | declare hty hd =>
    obtain ⟨here, d₁, after, hdeclared, hrest, rfl⟩ := declareLocals_cons_eq_ok hd
    cases hrest
    rw [List.append_nil] at hp ⊢
    cases hdeclared with
    | array harray => cases harray
    | scalar _ hinit _ =>
      rw [placed_located] at hp
      rw [Code.size_located]
      have hkey : frame.offset? (d.frame.freshKey x) = some (d.frame.next : Int) := by
        rw [FrameLayout.offset?, hx.entries (d.frame.get?_addLocal x ty none)]
        rfl
      unfold State.Ready at hready
      unfold State.initialized
      split at hready
      next hnested =>
        obtain ⟨old, hold, holdty⟩ := hready
        rw [if_pos hnested] at hp ⊢
        rw [if_pos hnested]
        cases hinit with
        | default h => cases h
        | @constant c _ l h hw =>
          cases h
          have hst : Stored d.scope (.var (d.frame.freshKey x) none) ty
            (lower site.fn d.scope (.literal c l)) d.supply (.literal c l) _ d.supply := .literal hw
          exact runs_stored_constant hs ha hu hv hst hkey hold holdty hp hpc hheld
        | computed h _ hst =>
          cases h
          exact runs_stored_constant hs ha hu hv hst hkey hold holdty hp hpc hheld
      next hnested =>
        rw [if_neg hnested] at hp ⊢
        rw [if_neg hnested]
        cases hinit with
        | default h => cases h
        | constant h hw =>
          cases h
          cases hu
          cases hw.symm.trans hv
          exact ⟨1, st.registers, runs_push hp.1 ⟨rfl, rfl, rfl⟩ hpc rfl⟩
        | @computed init store s' h _ hst =>
          cases h
          -- the slot is pushed with the default value first
          obtain ⟨hslot, hstore⟩ := hp
          have hpush := runs_push (w := w) hslot ⟨rfl, rfl, rfl⟩ hpc rfl
          have hold : (st.stack.push (.defaultOf ty))[st.bp + d.frame.next]? =
              some (.defaultOf ty) := by
            rw [← hready, Array.getElem?_push_size]
          obtain ⟨k, registers, hrun⟩ : ∃ k registers, T.Runs k
              { st with pc := addr + 1, stack := st.stack.push (.defaultOf ty) } w { st with
                pc := addr + 1 + store.size
                registers := registers
                stack := (st.stack.push (.defaultOf ty)).setIfInBounds (st.bp + d.frame.next) v } w :=
            runs_stored_constant hs ha hu hv hst hkey hold (Value.ty_defaultOf hty) hstore rfl hheld
          have hset : (st.stack.push (.defaultOf ty)).setIfInBounds (st.bp + d.frame.next) v =
              st.stack.push v := by
            rw [← hready]
            apply Array.toList_inj.mp
            simp
          have hsize : addr + ((Initial.computed store).slotCode ty x).size =
              addr + 1 + store.size := by
            simp [Initial.slotCode]
            omega
          refine ⟨1 + k, registers, ?_⟩
          rw [hsize, ← hset]
          exact hpush.trans hrun

end Target

/-- A declared variable is in scope, and its slot is the next one of the frame. -/
theorem lookup?_of_declaration {site : Site} {d d' : Draft} {ty : Ty} {x : String}
    {init : Option Expr} {length : Option Nat} {loc loc' : Location} {code : Code}
    (h : lowerStmt site (.declare ⟨ty, false, [⟨x, init, length, loc⟩], loc'⟩) d = .ok (code, d')) :
    d'.scope.lookup? x = some (.variable ⟨ty, false, none, none, .frame (d.frame.freshKey x)⟩) ∧
      d'.frame.entries.get? (d.frame.freshKey x) = some ⟨d.frame.next, ty, none⟩ := by
  obtain ⟨c, -, hc⟩ := loweredStmt_of_lowerStmt h
  cases hc with
  | declare hty hd =>
    obtain ⟨here, d₁, after, hdeclared, hrest, rfl⟩ := declareLocals_cons_eq_ok hd
    cases hrest
    cases hdeclared with
    | array harray => cases harray
    | scalar _ _ hscope =>
      refine ⟨?_, d.frame.get?_addLocal x ty none⟩
      have hfound := Scope.lookup?_of_declare hscope x
      rw [if_pos rfl] at hfound
      exact hfound

/-- The machine runs the code at its program counter to its end. There the stack is the given one,
and apart from it only registers have changed. -/
def Machine.Passes {σ : Type} (m : Machine σ) (code : Code) (stack : Array Value) : Prop :=
  ∃ n m', Machine.Steps n m m' ∧ m'.state = { m.state with
    pc := m.state.pc + code.size
    registers := m'.state.registers
    stack := stack
    steps := m.state.steps + n }

theorem Machine.passes_of_runs {σ : Type} {m : Machine σ} {T : Target Unit} {code : Code} {k : Nat}
    {registers : Registers} {stack : Array Value} (hT : T.machine = m.isolated)
    (h : T.Runs k m.state ()
      { m.state with pc := m.state.pc + code.size, registers := registers, stack := stack } ()) :
    m.Passes code stack := by
  obtain ⟨m', hsteps, hstate⟩ := exists_steps_of_runs hT h
  refine ⟨k, m', hsteps, ?_⟩
  rw [hstate]
  rfl

/-- **Folding agrees with execution.** A constant is lowered in every function that sees its global
variables, with the type of its value, and its assembled code pushes this value and changes no
memory, as long as the variables hold their folded values. So a local declaration is accepted
wherever a global one is, if its name is new, and stores the same value. If an expression without
`&&` and `||` does not fold for an arithmetic error, its code runs into this error. -/
theorem constant_folding {σ : Type} {scope : Scope} (hroot : RootScope scope) (e : Expr) :
    (∀ v, constant scope e = .ok v → ∀ fn scope' s, Agrees scope scope' e →
      ∃ code s', lower fn scope' e s = .ok ((code, v.ty), s') ∧
        ∀ (m : Machine σ) frame, m.AtCode frame fn code → Held scope e m.state.globals →
          m.Passes code (m.state.stack.push v)) ∧
    (∀ ty name length loc loc' g g' scope₁,
      GlobalLayout.declare g scope ⟨ty, false, [⟨name, some e, length, loc⟩], loc'⟩ =
        .ok (g', scope₁) →
      ∃ v, g'.values = g.values.push v ∧
        ∀ (site : Site) (d : Draft) x length' l l', Agrees scope d.scope e →
          d.scope.inner.get? x = none →
          ∃ code d', lowerStmt site (.declare ⟨ty, false, [⟨x, some e, length', l⟩], l'⟩) d =
              .ok (code, d') ∧
            d'.scope.lookup? x =
              some (.variable ⟨ty, false, none, none, .frame (d.frame.freshKey x)⟩) ∧
            d'.frame.entries.get? (d.frame.freshKey x) = some ⟨d.frame.next, ty, none⟩ ∧
            ∀ (m : Machine σ) frame, d'.frame.Extends frame → m.AtCode frame site.fn code →
              Held scope e m.state.globals → m.state.Ready site ty d.frame.next →
              m.Passes code (m.state.initialized site d.frame.next v)) ∧
    (∀ err loc, constant scope e = .error (.mistake (.constEval err) loc) → e.isStrict = true →
      ∀ fn scope' s code ty s', Agrees scope scope' e →
        lower fn scope' e s = .ok ((code, ty), s') →
        ∀ (m : Machine σ) frame, m.AtCode frame fn code → Held scope e m.state.globals →
          ∃ n m', Machine.Steps n m m' ∧ m'.executeNext = .error (.arithmetic err) m') := by
  -- each part is about code in a machine; `AtCode` makes of it a target for the simulation
  have hs := hroot.folds
  refine ⟨?_, ?_, ?_⟩
  · intro v hv fn scope' s ha
    obtain ⟨code, n, hl⟩ := lower_constant hs ha hv fn s
    refine ⟨code, s.withLabels n, hl, fun m frame hm hheld => ?_⟩
    obtain ⟨T, hT, hp⟩ := hm.target
    obtain ⟨k, registers, hrun⟩ := Target.runs_constant (w := ()) hs ha hv hl hp rfl hheld
    exact Machine.passes_of_runs hT hrun
  · intro ty name length loc loc' g g' scope₁ hdeclare
    obtain ⟨hty, hall⟩ := Compiler.globalsDeclare_eq_ok.mp hdeclare
    simp only [GlobalLayout.declareAll, bind_eq_ok] at hall
    obtain ⟨⟨g₁, scope₂⟩, hone, hnil⟩ := hall
    cases hnil
    obtain ⟨vs, _, _, hc, -, rfl⟩ := GlobalLayout.declareOne_eq_ok hone
    obtain ⟨u, v, hu, hv, rfl⟩ := contents_of_initializer rfl rfl hc
    refine ⟨v, by simp, fun site d x length' l l' ha hx => ?_⟩
    obtain ⟨code, d', hl⟩ := lowerStmt_constant site hty hs ha hu hv hx
    obtain ⟨hlookup, hentry⟩ := lookup?_of_declaration hl
    refine ⟨code, d', hl, hlookup, hentry, fun m frame hframe hm hheld hready => ?_⟩
    obtain ⟨T, hT, hp⟩ := hm.target
    obtain ⟨k, registers, hrun⟩ := Target.runs_declared_constant (w := ()) hs ha hu hv hl hframe hp
      rfl hheld hready
    exact Machine.passes_of_runs hT hrun
  · intro err loc herr hstrict fn scope' s code ty s' ha hl m frame hm hheld
    obtain ⟨T, hT, hp⟩ := hm.target
    exact Machine.exists_fault_of_breaks hT
      (Target.breaks_constant hs ha hstrict herr hl hp rfl hheld)

/-- The root scope behind the declaration `int a = 6`. -/
def six : Scope where
  inner := Table.empty.insert "a" (.variable ⟨.int, false, none, some (.int 6), .global 0⟩)
  outer := []

/-- The expression `a / 2 == 3 && true`. -/
def half : Expr :=
  Build.binary .and
    (Build.binary .eq (Build.binary .div (Build.ident "a") (Build.lit (.int 2))) (Build.lit (.int 3)))
    (Build.lit (.bool true))

/-- Its code in a function `f`. -/
def halfCode : Code :=
  match lower "f" six.child half ⟨0, .empty⟩ with
  | .ok ((code, _), _) => code
  | .error _ => []

/-- A machine at this code, with the global variable in its memory. -/
def halfMachine : Machine Unit :=
  .load ⟨((assemble halfCode).toOption.getD []).toArray, #[.int 6], .empty⟩ ()

theorem constant_folding_half : halfMachine.Passes halfCode #[.bool true] := by
  have hdeclare : GlobalLayout.empty.declare .root
      (Build.declaration .int [Build.declarator "a" (some (Build.lit (.int 6)))]) =
      .ok (⟨#[.int 6], Table.empty.insert "a" ⟨0, .int, none⟩, []⟩, six) := by
    rfl
  have hroot : RootScope six := .declare (.functions rfl (by rintro name v ⟨⟩)) hdeclare
  have hheld : Held six half halfMachine.state.globals := by
    intro name v value o _ hlookup hvalue hslot
    rw [Scope.lookup?_eq, six, Table.get?_insert] at hlookup
    split at hlookup
    · cases hlookup
      cases hvalue
      cases hslot
      rfl
    · cases hlookup
  have hat : halfMachine.AtCode .empty "f" halfCode := by
    refine ⟨?_, [], [], halfCode, ?_, ?_, rfl⟩
    · unfold Image.Addressable
      decide +kernel
    · decide +kernel
    · decide +kernel
  obtain ⟨code, s', hl, hrun⟩ := (constant_folding hroot half).1 (.bool true) (by decide +kernel)
    "f" six.child ⟨0, .empty⟩ fun _ _ => rfl
  have hcode : code = halfCode := by
    unfold halfCode
    rw [hl]
  subst hcode
  exact hrun halfMachine .empty hat hheld

end Stepwise
