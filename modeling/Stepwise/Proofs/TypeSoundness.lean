import Mathlib
import Stepwise.Proofs.CallChain
import Stepwise.Proofs.TypedMemory
import Stepwise.Proofs.TypedRuns

/-!
# Type soundness

A compiled program that keeps to its arrays, and whose functions with a result end through a return
statement, never goes wrong for the sake of types: expressions leave values of their static types,
arguments arrive with the types of their parameters, in functions of the program and of the host,
and no arithmetic and no index meets a value of the wrong type. Only what the host returns is not
under the control of the program, so its conversion may fail.

## Main definitions

* `Image.InArray`: a slot belongs to the array that an address with an index names
* `Image.Orderly`: the next instruction keeps to its arrays and does not fall off the end of a
  function that has a result
* `Compilation.Receives`: a host function is called with the values of its arguments in their order

## Main results

* `type_soundness`: what holds in every state of an orderly run, and how it can fail
-/

namespace Stepwise

/-! ## Steps that change a variable by one -/

namespace Machine

variable {σ : Type} {m₀ m m' : Machine σ}

theorem decode_eq_change {j : Instr} {op : Operation} (hd : j.decode = .ok op)
    (hop : j.op = .inc ∨ j.op = .dec) : ∃ o, op = .change j.op o := by
  obtain ⟨code, dest, src, comment, origin⟩ := j
  rcases hop with rfl | rfl
  all_goals
    cases dest <;> cases src <;> cases hd
    exact ⟨_, rfl⟩

theorem decode_eq_move {j : Instr} {dest src : Operand} (h : j.decode = .ok (.move dest src)) :
    j.op = .mov ∧ j.dest = some dest ∧ j.src = some src := by
  obtain ⟨op, d, s, comment, origin⟩ := j
  unfold Instr.decode at h
  simp only at h
  split at h
  case h_11 =>
    cases h
    exact ⟨rfl, rfl, rfl⟩
  all_goals cases h

/-- Such a step leaves the stack as high as it was. -/
theorem eq_of_change {j : Instr} (hj : m.image.code[m.state.pc]? = some j)
    (hop : j.op = .inc ∨ j.op = .dec) (h : m.executeNext = .ok () m') :
    m'.state.pc = m.state.pc + 1 ∧ m'.state.bp = m.state.bp ∧ m'.state.sp = m.state.sp := by
  obtain ⟨j', op, s, w, hj', hd, ht, rfl⟩ := executeNext_eq_ok_iff.mp h
  cases hj.symm.trans hj'
  obtain ⟨o, rfl⟩ := decode_eq_change hd hop
  cases effect_of_transition ht with
  | change _ _ hw =>
    have halike := State.alike_of_write hw
    refine ⟨rfl, halike.bp, ?_⟩
    have hsize := congrArg Array.size halike.stackTypes
    rwa [State.size_stackTypes, State.size_stackTypes] at hsize

/-- A value was on top of the stack when a run of the call in progress came to an address, and it has
been in its slot since. -/
def Brought (m₀ m : Machine σ) (pc slot : Nat) (v : Value) : Prop :=
  ∃ a n, Steps n m₀ a ∧ a.state.pc = pc ∧ a.state.bp = m.state.bp ∧ a.state.sp = slot + 1 ∧
    Keeps slot v a m

theorem getElem?_topArguments {argc k : Nat} {s : State} (hargc : argc ≤ s.sp) (hk : k < argc) :
    (topArguments argc s)[k]? = s.stack[s.sp - (k + 1)]? := by
  have hlen : (s.stack.drop (s.stack.size - argc)).toList.length = argc := by
    have hsp : s.sp = s.stack.size := rfl
    simp
    omega
  rw [topArguments, List.getElem?_reverse (by omega), hlen]
  have hsp : s.sp = s.stack.size := rfl
  rw [Array.getElem?_toList, Array.drop_eq_extract, Array.getElem?_extract, if_pos (by omega)]
  congr 1
  omega

theorem length_topArguments {argc : Nat} {s : State} (hargc : argc ≤ s.sp) :
    (topArguments argc s).length = argc := by
  have hsp : s.sp = s.stack.size := rfl
  simp [topArguments]
  omega

end Machine

namespace TypedSetting

open Machine

variable {σ : Type} {S : TypedSetting} {m₀ m m' : Machine σ} {f : Routine}

/-- What the code of an argument has left is the value that was on top of the stack when the code was
done. -/
theorem brought_of_left {j : Instr} (hj : m.image.code[m.state.pc]? = some j) (hop : j.op = .call)
    (himage : ∀ n a, Steps n m₀ a → a.image.code = S.program.code)
    {slot start : Nat} {temp : Temp} {code : Code} (hleft : Left m₀ m m.state.bp slot temp)
    (hborn : S.Delivers start code temp.born) :
    ∃ v, m.state.stack[slot]? = some v ∧ temp.Has v ∧
      Brought m₀ m (start + code.size) slot v := by
  obtain ⟨v, a, k, hhas, hsteps, hpc, hbp, hsp, hkeeps⟩ := hleft
  refine ⟨v, hkeeps.last, hhas, ?_⟩
  rcases hborn with hborn | ⟨hborn, j', hj', hstep⟩
  · exact ⟨a, k, hsteps, hpc.trans hborn, hbp, hsp, hkeeps⟩
  · have hja : a.image.code[a.state.pc]? = some j' := by
      rw [himage k a hsteps, hpc]
      exact hj'
    rcases hkeeps.eq_or_step with rfl | ⟨b, hb, hkeeps'⟩
    · -- the instruction at hand is a call, so it changes nothing by one
      cases hj.symm.trans hja
      rw [hop] at hstep
      rcases hstep with hstep | hstep <;> cases hstep
    · obtain ⟨hpc', hbp', hsp'⟩ := eq_of_change hja hstep hb
      refine ⟨b, _, hsteps.trans (.one hb), ?_, hbp'.trans hbp, hsp'.trans hsp, hkeeps'⟩
      rw [hpc', hpc, hborn]

/-- The arguments of every call in progress have the types of its parameters. -/
theorem params_of_chain {P : Nat → Nat → Temp → Prop} {types : Array Ty} {K : Stage → Prop}
    {frames : List CallFrame} {pc bp sp : Nat} {logs : List (List Nat)} (hS : S.Vetted)
    (hchain : S.Chain P types K frames pc bp sp) (hcoh : S.Coherent types frames pc bp sp)
    {act : Activation} (hact : act ∈ activationsFrom frames pc bp logs) :
    ∃ f ∈ S.routines, f.Holds act.pc ∧ ∀ k ty, (S.header f).params[k]? = some ty →
      k < act.bp ∧ types[act.bp - (k + 1)]? = some ty := by
  induction frames generalizing K pc bp sp logs with
  | nil => cases hact
  | cons frame rest ih =>
    obtain ⟨f, hf, hinf, -, hrest⟩ := hchain
    obtain ⟨f', hf', hactive, hcoh'⟩ := hcoh
    obtain rfl := hS.valid.unique f hf f' hf' _ hinf.holds hactive.holds
    rcases List.mem_cons.mp hact with rfl | hact
    · refine ⟨f, hf, hinf.holds, ?_⟩
      intro k ty hk
      have hlt := (List.getElem?_eq_some_iff.mp hk).1
      have hlen := hS.params hf
      have hle := hactive.argc_le
      refine ⟨?_, hinf.params k ty hk⟩
      show k < bp
      omega
    · exact ih hrest hcoh' hact

end TypedSetting

/-! ## Orderly steps -/

/-- A name stands for a global variable at this offset, and the slot is one of its slots. -/
def Symbol.Spans (offset : Int) (slot : Nat) : Symbol → Prop
  | .variable ⟨ty, isArray, length, value, .global o⟩ => offset = o ∧ o ≤ slot ∧
    slot < o + Variable.span ⟨ty, isArray, length, value, .global o⟩
  | _ => False

instance (offset : Int) (slot : Nat) (symbol : Symbol) : Decidable (symbol.Spans offset slot) :=
  match symbol with
  | .variable ⟨_, _, _, _, .global _⟩ => inferInstanceAs (Decidable (_ ∧ _ ∧ _))
  | .variable ⟨_, _, _, _, .frame _⟩ => inferInstanceAs (Decidable False)
  | .function _ => inferInstanceAs (Decidable False)

/-- The addresses with an index among the operands of an instruction. -/
def Instr.indexed (i : Instr) : List Ptr :=
  i.operands.filterMap fun
    | .ptr ⟨base, offset, some x⟩ => some ⟨base, offset, some x⟩
    | _ => none

namespace Image

variable (image : Image) (globals : Scope) (s : State)

/-- A slot belongs to the array that an address with an index names: to a global variable of the
program, or to a variable of the function that runs. -/
def InArray (p : Ptr) (slot : Nat) : Prop :=
  match p.base with
  | .global => ∃ x ∈ globals.inner.entries, x.2.Spans p.offset slot
  | .frame => ∃ f ∈ image.symbols.functionAt? s.pc, ∃ x ∈ f.2.frame.entries,
    x.2.offset = p.offset ∧ x.2.Covers ((slot : Int) - s.bp)

/-- The next instruction keeps to its arrays, and if it returns from a function that has a result, it
is not the one behind the body but belongs to a return statement. -/
structure Orderly : Prop where
  inside : ∀ i ∈ image.code[s.pc]?, ∀ p ∈ i.indexed, ∀ r ∈ (s.locate p).toOption,
    image.InArray globals s p r.1
  returns : ∀ i ∈ image.code[s.pc]?, i.op = .ret → ∀ f ∈ image.symbols.functionAt? s.pc,
    f.2.ret = .void ∨ s.pc + 1 ≠ f.2.addr + f.2.size

instance (e : FrameEntry) (k : Int) : Decidable (e.Covers k) := inferInstanceAs (Decidable (_ ∧ _))

instance (p : Ptr) (slot : Nat) : Decidable (image.InArray globals s p slot) :=
  match p with
  | ⟨.global, _, _⟩ => inferInstanceAs (Decidable (∃ x ∈ globals.inner.entries, _))
  | ⟨.frame, _, _⟩ => inferInstanceAs (Decidable (∃ f ∈ image.symbols.functionAt? s.pc, _))

instance : Decidable (image.Orderly globals s) :=
  decidable_of_iff (_ ∧ _) ⟨fun h => ⟨h.1, h.2⟩, fun h => ⟨h.inside, h.returns⟩⟩

end Image

namespace Compiler.Compilation

open Machine Lowering

variable {σ : Type} {hosts : List HostDecl} {program : Program} {image : Image}
  (c : Compilation hosts program image)

/-- **A compiled program is vetted.** -/
theorem vetted (haddr : image.Addressable) : c.typedSetting.Vetted where
  valid := c.valid haddr
  labels := by
    intro l a hl
    rcases le_of_collectLabels c.collected hl with hnone | hle
    · simp at hnone
    · rw [Nat.zero_add, ← c.size_code] at hle
      exact hle
  globals := c.sound
  frame := by
    intro f hf
    obtain ⟨d, hd, hfd⟩ := c.exists_definition hf
    rw [hfd]
    exact (c.compiled hd).frame_sound
  params := by
    intro f hf
    obtain ⟨d, hd, hfd⟩ := c.exists_definition hf
    generalize f.entry = entry at hfd
    subst hfd
    rw [c.header_routine hd hf]
    simp [Definition.routine, Definition.argc]
  checks := fun hf hpc => c.checks haddr hf hpc
  admitted := by
    intro f hf
    obtain ⟨d, hd, hfd⟩ := c.exists_definition hf
    generalize f.entry = entry at hfd
    subst hfd
    exact (c.disciplined haddr hf hd).admitted

/-- An element of a global array lies in the block of the array. -/
theorem block_of_spans {name : String} {symbol : Symbol} {offset : Int} {slot : Nat}
    (hname : (name, symbol) ∈ c.progress.scope.inner.entries) (h : symbol.Spans offset slot) :
    ∃ (o span : Nat) (ty : Ty), offset = o ∧ c.setting.globals.Block o span ty ∧ o ≤ slot ∧
      slot < o + span := by
  unfold Symbol.Spans at h
  split at h
  next ty isArray length value o =>
    obtain ⟨o', ⟨⟩, -, hblock⟩ := c.sound.declared (Table.get?_eq_some_iff.mpr hname)
    exact ⟨o, _, ty, h.1, hblock, h.2⟩
  · exact h.elim

/-- The next instruction of an orderly state is one that checked code allows. -/
theorem allows_of_orderly {s : State} (h : image.Orderly c.progress.scope s) :
    c.typedSetting.Allows s := by
  intro f hf hpc j op hj hd
  obtain ⟨d, hdef, hat, hfd⟩ := c.functionAt?_of_holds hf hpc
  refine ⟨?_, ?_⟩
  · intro p slot v hmem hindex hl
    -- the element belongs to some array; the two regions look for it in different tables
    have hin : image.InArray c.progress.scope s p slot := by
      refine h.inside j hj p ?_ (slot, v) ?_
      · rw [← operands_of_decode hd] at hmem
        obtain ⟨base, offset, x⟩ := p
        cases x with
        | none => exact absurd rfl hindex
        | some x => exact List.mem_filterMap.mpr ⟨_, hmem, rfl⟩
      · rw [hl]
        rfl
    unfold Image.InArray at hin
    unfold TypedSetting.Hits
    cases hbase : p.base with
    | global =>
      rw [hbase] at hin
      obtain ⟨⟨name, symbol⟩, hname, hspans⟩ := hin
      exact c.block_of_spans hname hspans
    | frame =>
      rw [hbase] at hin
      obtain ⟨_, hfun, ⟨key, entry⟩, hkey, hentry⟩ := hin
      cases hat.symm.trans hfun
      refine ⟨key, entry, ?_, hentry⟩
      rw [hfd]
      exact Table.get?_eq_some_iff.mpr hkey
  · rintro rfl
    have hret := h.returns j hj (decode_eq_ret hd) _ hat
    generalize f.entry = entry at hfd hret
    subst hfd
    rw [c.header_routine hdef hf]
    exact hret

section Runs

variable {m₀ m m' : Machine σ} {n : Nat} (haddr : image.Addressable) (hstart : m₀.Starts image)

include haddr hstart

/-- **In an orderly run, every machine is as the stages say.** -/
theorem told_of_steps (hrun : Steps n m₀ m)
    (horderly : ∀ k a, k < n → Steps k m₀ a → image.Orderly c.progress.scope a.state) :
    c.typedSetting.Told m₀ m := by
  induction n generalizing m with
  | zero =>
    cases hrun
    unfold TypedSetting.Told
    rw [hstart.2]
    trivial
  | succ n ih =>
    obtain ⟨a, hbefore, hlast⟩ := hrun.split
    cases hlast with
    | step hstep hend =>
      cases hend
      obtain ⟨himage, hs⟩ := c.steady_of_steps haddr hstart hbefore
      have htold := ih hbefore fun k b hk => horderly k b (by omega)
      exact htold.step (c.vetted haddr) (congrArg Image.code himage) hs hbefore
        (c.allows_of_orderly (horderly n a (Nat.lt_succ_self n) hbefore)) hstep

/-- Where the code of an expression ends, a value of its type is on top of the stack. -/
theorem top_of_told (hrun : Steps n m₀ m) (htold : c.typedSetting.Told m₀ m) {d : Definition}
    (hd : d ∈ c.definitions) {e : CodeEntry} (he : image.symbols.code.get? d.source.name = some e)
    {x : ExprOccurrence} (hx : d.Lowers e.addr true x) {code : Code} {ty : Ty} {s' : Supply}
    (hlower : lower x.fn x.scope x.expr x.supply = .ok ((code, ty), s'))
    (hpc : m.state.pc = x.addr + code.size) : ∃ v, m.state.stack.back? = some v ∧ v.ty = ty := by
  obtain ⟨-, hr⟩ := c.routine_of_get? hd he
  obtain ⟨hholds, born, rest, htemps⟩ := c.typed_of_lowers haddr hr hd hx hlower
  rw [← hpc] at hholds htemps
  obtain ⟨-, hs⟩ := c.steady_of_steps haddr hstart hrun
  have hS := c.vetted haddr
  cases hframes : m.state.frames with
  | nil =>
    have hchain := hs.chain
    rw [hframes] at hchain
    exact absurd hholds (hS.valid.not_holds_of_atRest hr hchain.1)
  | cons frame callers =>
    obtain ⟨f, hf, hscene, -⟩ := htold.scene hS hs hframes
    obtain rfl := c.holds_unique hf hr hscene.active.holds hholds
    obtain ⟨v, hv, hhas⟩ := hscene.temps 0 ⟨some ty, born⟩ (by rw [htemps]; rfl)
    rw [Array.back?_eq_getElem?]
    exact ⟨v, hv, hhas ty rfl⟩

/-- The parameters of every call in progress hold values of their types. -/
theorem params_of_told (hrun : Steps n m₀ m) (htold : c.typedSetting.Told m₀ m) {act : Activation}
    (hact : act ∈ m.state.activations []) :
    ∃ d ∈ c.definitions, ∃ e, image.symbols.functionAt? act.pc = some (d.source.name, e) ∧
      ∀ k ty name, (namedParams d.source.parameters)[k]? = some (ty, name) →
        k < act.bp ∧ ∃ v, m.state.stack[act.bp - (k + 1)]? = some v ∧ v.ty = ty := by
  obtain ⟨-, hs⟩ := c.steady_of_steps haddr hstart hrun
  obtain ⟨f, hf, hpc, hparams⟩ :=
    TypedSetting.params_of_chain (c.vetted haddr) htold hs.chain hact
  obtain ⟨d, hd, hat, hfd⟩ := c.functionAt?_of_holds hf hpc
  refine ⟨d, hd, _, hat, ?_⟩
  intro k ty name hk
  generalize f.entry = entry at hfd
  subst hfd
  have hty : (c.typedSetting.header (d.routine entry)).params[k]? = some ty := by
    rw [c.header_routine hd hf, List.getElem?_map, hk]
    rfl
  obtain ⟨hlt, htypes⟩ := hparams k ty hty
  rw [State.stackTypes, Array.getElem?_map] at htypes
  exact ⟨hlt, Option.map_eq_some_iff.mp htypes⟩

end Runs

/-! ## Calls of host functions -/

/-- A host function is called with these values by a call in the source: they are the values of its
arguments, in their order, each left on the stack by the code of its argument, and those for which
the function declares a parameter have its type. -/
def Receives (m₀ m : Machine σ) (name : String) (vs : List Value) : Prop :=
  ∃ (decl : HostDecl) (d : Definition) (e : CodeEntry) (needed : Bool) (x : ExprOccurrence)
    (args : List Expr) (loc loc' : Location),
    (hostTable hosts).get? name = some decl ∧ d ∈ c.definitions ∧
    image.symbols.functionAt? m.state.pc = some (d.source.name, e) ∧ d.Lowers e.addr needed x ∧
    x.expr = .call (.ident name loc) args loc' ∧ vs.length = args.length ∧
    decl.params.length ≤ vs.length ∧
    (∀ (k : Nat) (ty : Ty), decl.params[k]? = some ty → ∃ v, vs[k]? = some v ∧ v.ty = ty) ∧
    ∀ (k : Nat) (v : Value), vs[k]? = some v → ∃ start code, x.Passes k start code ∧
      Brought m₀ m (start + code.size) (m.state.sp - (k + 1)) v

section Hosts

variable {m₀ m m' : Machine σ} {n : Nat} (haddr : image.Addressable) (hstart : m₀.Starts image)

include haddr hstart

/-- **A host function receives what the source passes to it.** -/
theorem receives_of_told (hrun : Steps n m₀ m) (htold : c.typedSetting.Told m₀ m)
    (hstep : m.executeNext = .ok () m') {i : Instr} {name : String}
    (hi : image.code[m.state.pc]? = some i) (hop : i.op = .call)
    (hdest : i.dest = some (.host name)) :
    ∃ f argc, m.hosts.get? name = some f ∧ c.Receives m₀ m name (topArguments argc m.state) ∧
      m' = m.moved m.state.pc i (hostTransition f argc m.state m.world).1
        (hostTransition f argc m.state m.world).2 := by
  obtain ⟨himage, hs⟩ := c.steady_of_steps haddr hstart hrun
  have hS := c.vetted haddr
  obtain ⟨i', op, s, w, hi', hd, ht, hm'⟩ := executeNext_eq_ok_iff.mp hstep
  rw [himage] at hi'
  cases hi.symm.trans hi'
  obtain ⟨count, rfl⟩ : ∃ count, op = .call (.host name) count := by
    obtain ⟨code, dest, src, comment, origin⟩ := i
    obtain rfl : code = .call := hop
    obtain rfl : dest = some (.host name) := hdest
    cases src with
    | none => cases hd
    | some count =>
      cases hd
      exact ⟨count, rfl⟩
  cases hframes : m.state.frames with
  | nil =>
    -- outside of all functions only the function that the program starts with is called
    have hchain := hs.chain
    rw [hframes] at hchain
    rcases hchain.1 with hend | ⟨j, t, hj, hd', -⟩ | ⟨j, t, k, g, hj, hd', -⟩
    · rw [hend] at hi
      simp [setting] at hi
    · cases hi.symm.trans hj
      cases hd.symm.trans hd'
    · cases hi.symm.trans hj
      cases hd.symm.trans hd'
  | cons frame callers =>
    obtain ⟨f, hf, hscene, hinf, -⟩ := htold.scene hS hs hframes
    obtain ⟨j, op, hj, hd', hobeys⟩ := TypedSetting.obeys_of_checks hS hf hinf.holds
    cases hi.symm.trans hj
    cases hd.symm.trans hd'
    cases hobeys with
    | @host _ k argc hk hserves hnext =>
      have hlen := hserves.le_length
      have hlen' := hscene.length_temps hS hf
      have hargc : argc ≤ m.state.sp := by omega
      cases effect_of_transition ht with
      | call hnot => exact absurd rfl (hnot _)
      | @host _ _ _ _ g hcount hargc' _ hg =>
        cases hcount
        cases hargc'.symm.trans (Setting.argumentCount_of_toInt hk)
        refine ⟨g, argc, hg, ?_, hm'⟩
        obtain ⟨d, hdef, hat, hfd⟩ := c.functionAt?_of_holds hf hinf.holds
        obtain ⟨decl, needed, x, args, loc, loc', sig, code, s', hdecl, hlow, hexpr, -, -, -,
          hargs, hparams, htypes, hpasses⟩ := hserves
        have hlower : d.Lowers f.entry needed x := by
          generalize f.entry = entry at hfd
          subst hfd
          rwa [c.header_routine hdef hf] at hlow
        have hlength := length_topArguments hargc
        refine ⟨decl, d, _, needed, x, args, loc, loc', hdecl, hdef, hat, hlower, hexpr,
          hlength.trans hargs.symm, hparams.trans_eq hlength.symm, ?_, ?_⟩
        · intro k ty hty
          have hlt := (List.getElem?_eq_some_iff.mp hty).1
          obtain ⟨temp, htemp, hknown⟩ := Option.bind_eq_some_iff.mp (htypes k ty hty)
          obtain ⟨v, hv, hhas⟩ := hscene.temps k temp htemp
          rw [getElem?_topArguments hargc (by omega)]
          exact ⟨v, hv, hhas ty hknown⟩
        · intro k v hv
          have hlt := (List.getElem?_eq_some_iff.mp hv).1
          rw [hlength] at hlt
          rw [getElem?_topArguments hargc hlt] at hv
          obtain ⟨temp, start, code', htemp, hpass, hborn⟩ := hpasses k hlt
          have hcode (k : Nat) (a : Machine σ) (ha : Steps k m₀ a) :
              a.image.code = c.typedSetting.program.code :=
            congrArg Image.code (c.steady_of_steps haddr hstart ha).1
          obtain ⟨v', hv', -, hbrought⟩ := TypedSetting.brought_of_left
            (by rw [himage]; exact hi) hop hcode (hinf.temps k temp htemp) hborn
          cases hv.symm.trans hv'
          exact ⟨start, code', hpass, hbrought⟩

/-! ## Faults -/

/-- **How an orderly step can fail.** -/
theorem fault_of_told (hrun : Steps n m₀ m) (htold : c.typedSetting.Told m₀ m)
    (horderly : image.Orderly c.progress.scope m.state) {e : Fault}
    (hfault : m.executeNext = .error e m') :
    (∀ v, e ≠ .invalidIndex v) ∧ (∀ cause, e = .arithmetic cause → cause.isTyping = false) ∧
    ∀ cause, e = .conversion cause → ∃ before call i name decl o,
      m.state.pc = before + 1 ∧ image.code[before]? = some call ∧ call.op = .call ∧
      call.dest = some (.host name) ∧ (hostTable hosts).get? name = some decl ∧
      image.code[m.state.pc]? = some i ∧ i.op = .mov ∧
      i.dest = some (.ptr ⟨.global, (o : Nat), none⟩) ∧ i.src = some (.reg .rv) ∧
      (decl.ret, o) ∈ c.progress.globals.casts ∧
      coerce decl.ret (m.state.registers.get .rv) = .error cause := by
  obtain ⟨himage, hs⟩ := c.steady_of_steps haddr hstart hrun
  have hS := c.vetted haddr
  obtain ⟨-, ⟨-, rfl⟩ | ⟨i, hi, hdecode | ⟨op, hd, he⟩⟩⟩ := executeNext_eq_error_iff.mp hfault
  · exact ⟨by simp, by simp, by simp⟩
  · -- every instruction of a compiled program decodes
    rw [himage] at hi
    have hok : ∃ op, i.decode = .ok op := by
      have hchain := hs.chain
      cases hframes : m.state.frames with
      | nil =>
        rw [hframes] at hchain
        exact hchain.1.exists_decode hi
      | cons frame callers =>
        obtain ⟨f, hf, -, hinf, -⟩ := htold.scene hS hs hframes
        obtain ⟨j, op, hj, hd, -⟩ := TypedSetting.obeys_of_checks hS hf hinf.holds
        cases hi.symm.trans hj
        exact ⟨op, hd⟩
    obtain ⟨op, hd⟩ := hok
    cases hdecode.symm.trans hd
  · obtain ⟨hindex, harith, hconv⟩ := htold.tolerated hS (congrArg Image.code himage) hs
      (c.allows_of_orderly horderly) hi hd he
    refine ⟨hindex, harith, ?_⟩
    intro cause hcause
    obtain ⟨decl, o, rfl, ⟨name, before, call, hpc, hcall, hop, hdest, hdecl, hcell⟩, hcoerce⟩ :=
      hconv cause hcause
    obtain ⟨hmov, hto, hfrom⟩ := decode_eq_move hd
    rw [himage] at hi
    exact ⟨before, call, i, name, decl, o, hpc, hcall, hop, hdest, hdecl, hi, hmov, hto, hfrom,
      hcell, hcoerce⟩

end Hosts

end Compiler.Compilation

/-- **Type soundness.** A compiled program is run in which every instruction so far has kept to its
arrays, and every function with a result has ended through a return statement. Where the code of an
expression ends, the value on top of the stack has the static type of the expression. The parameters
of every call in progress hold values of their types. A host function receives the values of the
arguments in the order of the source, and those with a parameter have its type. If the next
instruction is orderly too but fails, then no index and no operand of arithmetic has the wrong type,
and a conversion fails only where the result of a host function is converted to its type. -/
theorem type_soundness {σ : Type} {hosts : List HostDecl} {program : Program} {image : Image}
    (hcompile : compile hosts program = .ok image) (haddr : image.Addressable) :
    Nonempty (Compiler.Compilation hosts program image) ∧
    ∀ (c : Compiler.Compilation hosts program image) {m₀ m : Machine σ} {n : Nat},
      m₀.Starts image → Machine.Steps n m₀ m →
      (∀ k a, k < n → Machine.Steps k m₀ a → image.Orderly c.progress.scope a.state) →
      (∀ d ∈ c.definitions, ∀ e, image.symbols.code.get? d.source.name = some e →
        ∀ x, d.Lowers e.addr true x → ∀ code ty s',
        Lowering.lower x.fn x.scope x.expr x.supply = .ok ((code, ty), s') →
        m.state.pc = x.addr + code.size → ∃ v, m.state.stack.back? = some v ∧ v.ty = ty) ∧
      (∀ act ∈ m.state.activations [], ∃ d ∈ c.definitions, ∃ e,
        image.symbols.functionAt? act.pc = some (d.source.name, e) ∧
        ∀ k ty name, (Lowering.namedParams d.source.parameters)[k]? = some (ty, name) →
          k < act.bp ∧ ∃ v, m.state.stack[act.bp - (k + 1)]? = some v ∧ v.ty = ty) ∧
      (∀ m' i name, m.executeNext = .ok () m' → image.code[m.state.pc]? = some i → i.op = .call →
        i.dest = some (.host name) → ∃ f argc, m.hosts.get? name = some f ∧
          c.Receives m₀ m name (Machine.topArguments argc m.state) ∧
          m' = m.moved m.state.pc i (Machine.hostTransition f argc m.state m.world).1
            (Machine.hostTransition f argc m.state m.world).2) ∧
      (image.Orderly c.progress.scope m.state → ∀ m' e, m.executeNext = .error e m' →
        (∀ v, e ≠ .invalidIndex v) ∧ (∀ cause, e = .arithmetic cause → cause.isTyping = false) ∧
        ∀ cause, e = .conversion cause → ∃ before call i name decl o,
          m.state.pc = before + 1 ∧ image.code[before]? = some call ∧ call.op = .call ∧
          call.dest = some (.host name) ∧ (Compiler.hostTable hosts).get? name = some decl ∧
          image.code[m.state.pc]? = some i ∧ i.op = .mov ∧
          i.dest = some (.ptr ⟨.global, (o : Nat), none⟩) ∧ i.src = some (.reg .rv) ∧
          (decl.ret, o) ∈ c.progress.globals.casts ∧
          coerce decl.ret (m.state.registers.get .rv) = .error cause) := by
  obtain ⟨c₀, -⟩ := Compiler.exists_compilation hcompile
  refine ⟨⟨c₀⟩, ?_⟩
  intro c m₀ m n hstart hrun horderly
  -- what is known of every step so far is all that the four parts need
  have htold := c.told_of_steps haddr hstart hrun horderly
  refine ⟨?_, ?_, ?_, ?_⟩
  · intro d hd e he x hx code ty s' hlower hpc
    exact c.top_of_told haddr hstart hrun htold hd he hx hlower hpc
  · intro act hact
    exact c.params_of_told haddr hstart hrun htold hact
  · intro m' i name hstep hi hop hdest
    exact c.receives_of_told haddr hstart hrun htold hstep hi hop hdest
  · intro hnext m' e hfault
    exact c.fault_of_told haddr hstart hrun htold hnext hfault

/-- A run comes to its end within so many steps, and all its steps are orderly. -/
def Machine.isOrderly {σ : Type} (image : Image) (globals : Scope) : Nat → Machine σ → Bool
  | 0, _ => false
  | fuel + 1, m => decide (image.Orderly globals m.state) &&
    match executeNext m with
    | .ok _ m' => isOrderly image globals fuel m'
    | .error _ _ => true

theorem Machine.orderly_of_isOrderly {σ : Type} {image : Image} {globals : Scope} {fuel k : Nat}
    {m a : Machine σ} (h : isOrderly image globals fuel m = true) (hrun : Steps k m a) :
    image.Orderly globals a.state := by
  induction fuel generalizing k m with
  | zero => cases h
  | succ fuel ih =>
    simp only [isOrderly, Bool.and_eq_true, decide_eq_true_eq] at h
    obtain ⟨hnext, hrest⟩ := h
    cases hrun with
    | refl => exact hnext
    | step hstep hrun =>
      rw [hstep] at hrest
      exact ih hrest hrun

theorem Machine.starts_load {σ : Type} (image : Image) (world : σ) :
    (Machine.load image world).Starts image := ⟨rfl, rfl⟩

/-- A host function does not change where a program starts. -/
theorem Machine.Starts.register {σ : Type} {image : Image} {m : Machine σ} (h : m.Starts image)
    {name : String} {f : HostFunction σ} : (m.register name f).Starts image := h

/-- A program that asks its host for a number with a number of another type, and stores it at an
index that a function computes. -/
def asking : Program :=
  ⟨[Build.array .int "a" 3,
    Build.func "twice" [Build.param .int "x"] .int
      [Build.ret (some (Build.binary .add (Build.ident "x") (Build.ident "x")))],
    Build.func "main" [] .void
      [Build.expr (Build.assign (Build.member "a" (Build.call "twice" [Build.lit (.int 1)]))
        (Build.call "ask" [Build.member "a" (Build.lit (.int 0))]))]]⟩

/-- What the program knows of its host. -/
def askingHosts : List HostDecl := [⟨"ask", [.double], .int, false⟩]

/-- The program with a host that answers with a text. -/
def unanswered : Machine Unit :=
  (Machine.load (imageOf askingHosts asking) ()).register "ask" fun _ w => (.str "none", w)

/-- The program comes to the conversion of the answer, which fails. Up to there its steps are
orderly, though it has read an element of its array and has called a function with a result. -/
theorem type_soundness_unanswered :
    ∃ (n : Nat) (m m' : Machine Unit), Machine.Steps n unanswered m ∧
      m.executeNext = .error (.conversion (.notNumeric "none")) m' ∧
      ∃ before call name, m.state.pc = before + 1 ∧
        (imageOf askingHosts asking).code[before]? = some call ∧ call.op = .call ∧
        call.dest = some (.host name) := by
  have hcompile : compile askingHosts asking = .ok (imageOf askingHosts asking) :=
    compile_eq_ok_imageOf (by decide +kernel)
  have haddr : (imageOf askingHosts asking).Addressable := by
    unfold Image.Addressable
    decide +kernel
  have hfault : (Machine.runWhile (fun _ => true) 20 unanswered).2 =
      some (.conversion (.notNumeric "none")) := by decide +kernel
  have horderly : (Compiler.translate askingHosts asking).toOption.all (fun p =>
      unanswered.isOrderly (imageOf askingHosts asking) p.scope 20) = true := by decide +kernel
  have hstart : unanswered.Starts (imageOf askingHosts asking) := by
    unfold unanswered
    exact (Machine.starts_load _ ()).register
  generalize imageOf askingHosts asking = image at hcompile haddr horderly hstart ⊢
  generalize unanswered = m₀ at hfault horderly hstart ⊢
  obtain ⟨n, m, hrun, hm⟩ := Machine.exists_steps_of_runWhile (Prod.ext rfl hfault)
  obtain ⟨c, hc⟩ := Compiler.exists_compilation hcompile
  rw [hc] at horderly
  have hstates : ∀ k a, Machine.Steps k m₀ a → image.Orderly c.progress.scope a.state := by
    intro k a ha
    exact Machine.orderly_of_isOrderly horderly ha
  obtain ⟨-, hsound⟩ := type_soundness (σ := Unit) hcompile haddr
  obtain ⟨-, -, -, hfaults⟩ := hsound c hstart hrun fun k a _ => hstates k a
  obtain ⟨-, -, hconv⟩ := hfaults (hstates n m hrun) _ _ hm
  obtain ⟨before, call, -, name, -, -, hpc, hcall, hop, hdest, -⟩ := hconv _ rfl
  exact ⟨n, m, _, hrun, hm, before, call, name, hpc, hcall, hop, hdest⟩

end Stepwise
