import Mathlib
import Stepwise.Proofs.StackDiscipline
import Stepwise.Proofs.TypedOperands

/-!
# Steps of checked code

What an instruction of a checked program does to a state that is as the stage at its address says.
It stays in its call, and then the state is as the next stage says; or it enters a function, or it
returns. If it fails, then not for the sake of types, except where the result of a host function is
converted to its declared type.

## Main definitions

* `Converts`: the instruction that converts the result of a host function
* `Obeys`: the operations of checked code, with the stages that they connect
* `Stays`: what a step inside a call leaves

## Main results

* `obeys_of_checks`: a checked instruction decodes to such an operation
* `outcome_of_obeys`: what a step does
* `tolerated_of_obeys`: how a step can fail
-/

namespace Stepwise

namespace TypedSetting

/-! ## The operations of checked code -/

/-- The result of a host function, which the instruction in front has called, is converted to its
declared type in the scratch cell at `o`. -/
def Converts (S : TypedSetting) (pc : Nat) (decl : HostDecl) (o : Nat) : Prop :=
  ∃ (name : String) (before : Nat) (j : Instr), pc = before + 1 ∧
    S.program.code[before]? = some j ∧ j.op = .call ∧ j.dest = some (.host name) ∧
    S.hosts.get? name = some decl ∧ (decl.ret, o) ∈ S.globals.casts

/-- An operation of checked code works with values of the types that the stage at its address
knows, and the stage where it goes on knows no more than what it leaves. -/
inductive Obeys (S : TypedSetting) (f : Routine) (pc : Nat) : Operation → Prop
  | push {o : Operand} {ty : Ty} : S.Shows f (S.stage f pc) o ty →
    (S.stage f (pc + 1)).Weaker
      { S.stage f pc with temps := ⟨some ty, pc + 1⟩ :: (S.stage f pc).temps } →
    Obeys S f pc (.push o)
  | reserve {v : Value} : (S.stage f pc).temps = [] →
    (S.stage f (pc + 1)).Weaker (S.stage f pc) → Obeys S f pc (.push (.imm v))
  | pop {x : Reg} {ty : Ty} {born : Nat} {rest : List Temp} :
    (S.stage f pc).temps = ⟨some ty, born⟩ :: rest →
    (S.stage f (pc + 1)).Weaker ((S.stage f pc).pop x) → Obeys S f pc (.pop (.reg x))
  | load {x : Reg} {v : Value} : (S.stage f (pc + 1)).Weaker ((S.stage f pc).set x (some v.ty)) →
    Obeys S f pc (.load x v)
  | copy {x : Reg} {o : Operand} {ty : Ty} : S.Shows f (S.stage f pc) o ty →
    (S.stage f (pc + 1)).Weaker ((S.stage f pc).set x (some ty)) → Obeys S f pc (.move (.reg x) o)
  | store {p : Ptr} {o : Operand} {target source : Ty} : S.Spot f (S.stage f pc) p target →
    S.Shows f (S.stage f pc) o source → assignable target source = true →
    (S.stage f (pc + 1)).Weaker (S.stage f pc) → Obeys S f pc (.move (.ptr p) o)
  | convert {decl : HostDecl} {o : Nat} {w : Value} : S.Converts pc decl o →
    S.globals.values[o]? = some w → (S.stage f (pc + 1)).Weaker (S.stage f pc) →
    Obeys S f pc (.move (.ptr ⟨.global, o, none⟩) (.reg .rv))
  | compute {op : OpCode} {x y : Reg} {a b ty : Ty} : (S.stage f pc).regs x = some a →
    (S.stage f pc).regs y = some b → aluType op a b = some ty →
    (S.stage f (pc + 1)).Weaker ((S.stage f pc).set x (some ty)) →
    Obeys S f pc (.compute op (.reg x) (.reg y))
  | change {op : OpCode} {o : Operand} {ty : Ty} : op = .inc ∨ op = .dec →
    ty = .int ∨ ty = .double → S.Shows f (S.stage f pc) o ty → (∀ v, o ≠ .imm v) →
    (S.stage f (pc + 1)).Weaker (S.stage f pc) → Obeys S f pc (.change op o)
  | jump {n : Int64} {c : Option Reg} {target : Nat} : (pc : Int) + n.toInt = target →
    (S.stage f target).Weaker (S.stage f pc) → (S.stage f (pc + 1)).Weaker (S.stage f pc) →
    (S.stage f target).regs .rv = none ∨
      (target = pc + 2 ∧ ∃ j, S.program.code[pc + 1]? = some j ∧ j.op = .ldi) →
    Obeys S f pc (.jump true (.imm (.int n)) (c.map .reg))
  | call {t n : Int64} {g : Routine} {result : Option Ty} : g ∈ S.routines → t.toInt = g.entry →
    n.toInt = g.argc →
    (∀ (k : Nat) (ty : Ty), (S.header g).params[k]? = some ty →
      (S.stage f pc).temps[k]?.bind Temp.ty = some ty) →
    (∀ ty, result = some ty → ty = (S.header g).ret ∧ ty ≠ .void) →
    (S.stage f (pc + 1)).Weaker ((S.stage f pc).call g.argc result) →
    Obeys S f pc (.call (.imm (.int t)) (.imm (.int n)))
  | host {name : String} {n : Int64} {argc : Nat} : n.toInt = argc →
    S.Serves f (S.stage f pc) pc name argc →
    (S.stage f (pc + 1)).Weaker ((S.stage f pc).call argc none) →
    Obeys S f pc (.call (.host name) (.imm (.int n)))
  | ret : (S.header f).ret = .void ∨
      ((S.stage f pc).regs .rv = some (S.header f).ret ∧ S.Returns f pc) ∨
      pc + 1 = f.entry + f.code.size → Obeys S f pc .ret

variable {S : TypedSetting} {f : Routine} {pc : Nat}

theorem mem_of_aluType {op : OpCode} {a b ty : Ty} (h : aluType op a b = some ty) :
    op ∈ [OpCode.add, .sub, .mul, .div, .and, .or, .xor, .cp] := by
  cases op with
  | add | sub | mul | div | and | or | xor | cp => simp
  | _ => cases h

/-- What an instruction that reserves nothing leaves does not depend on its comment. -/
theorem after_plain {t : Stage} {addr : Nat} {i : Instr} (h : i.reserves = false) :
    S.after f t addr i = S.after f t addr ⟨i.op, i.dest, i.src, none, none⟩ := by
  have hplain : Instr.reserves ⟨i.op, i.dest, i.src, none, none⟩ = false := by
    simp [Instr.reserves]
  simp only [after, h, hplain]

/-- **A checked instruction decodes to an operation of checked code.** -/
theorem obeys_of_checks (hS : S.Vetted) (hf : f ∈ S.routines) (hpc : f.Holds pc) :
    ∃ j op, S.program.code[pc]? = some j ∧ j.decode = .ok op ∧ S.Obeys f pc op := by
  obtain ⟨i, hi, hacc, hnext⟩ := hS.checks hf hpc
  obtain ⟨j, hj, hop, hd, hs, hc⟩ := exists_of_placed hi
  have hsize := hS.valid.lt_size hf hpc
  have hplain (h : i.reserves = false) : (S.stage f (pc + 1)).Weaker
      (S.after f (S.stage f pc) pc ⟨i.op, i.dest, i.src, none, none⟩) := by
    rw [← after_plain h]
    exact hnext
  obtain ⟨op, dest, src, comment, origin⟩ := i
  obtain ⟨op', dest', src', comment', origin'⟩ := j
  simp only at hop hd hs hc hacc hplain
  subst hop hd hs hc
  -- whether a slot is reserved is read off the remark, which is gone after decoding
  generalize hres : Instr.reserves _ = res at hacc hplain
  cases hacc with
  | @push o ty ho =>
    have hweak : (S.stage f (pc + 1)).Weaker
        ((S.stage f pc).push o ⟨S.kind f (S.stage f pc) o, pc + 1⟩) := hplain rfl
    rw [ho.kind hS.globals] at hweak
    exact ⟨_, _, hj, rfl, .push (ho.shows _ _) (hweak.trans ⟨rfl, Stage.regs_of_regs_push⟩)⟩
  | reserve htemps =>
    simp only [after, hres, if_true] at hnext
    exact ⟨_, _, hj, rfl, .reserve htemps ⟨hnext.temps, hnext.regs⟩⟩
  | pop htemps => exact ⟨_, _, hj, rfl, .pop htemps (hplain rfl)⟩
  | load => exact ⟨_, _, hj, rfl, .load (hplain rfl)⟩
  | @copy x o ty ho =>
    have hweak : (S.stage f (pc + 1)).Weaker
        ((S.stage f pc).set x (S.kind f (S.stage f pc) o)) := hplain rfl
    rw [ho.kind hS.globals] at hweak
    exact ⟨_, _, hj, rfl, .copy (ho.shows _ _) hweak⟩
  | @store d o target source hplace ho ha =>
    have hweak := hplain rfl
    rw [show (⟨.mov, some d, some o, none, none⟩ : Instr) = .mov d o from rfl,
      after_store hplace.ne_reg] at hweak
    obtain ⟨p, hp, hspot⟩ := hplace.spot .mov pc
    rw [Option.map_some, hp] at hj
    exact ⟨_, _, hj, rfl, .store hspot (ho.shows _ _) ha hweak⟩
  | convert hbefore hj' hop hdest hdecl hcell hw =>
    exact ⟨_, _, hj, rfl,
      .convert ⟨_, _, _, hbefore, hj', hop, hdest, hdecl, hcell⟩ hw (hplain rfl)⟩
  | @compute _ x y a b ty hx hy hty =>
    have hmem := mem_of_aluType hty
    have hweak : (S.stage f (pc + 1)).Weaker
        (S.after f (S.stage f pc) pc (.binary op' (.reg x) (.reg y))) := hplain rfl
    rw [after_alu hmem, hx, hy, Option.bind_some, Option.bind_some, hty] at hweak
    refine ⟨_, .compute op' (.reg x) (.reg y), hj, ?_, .compute hx hy hty hweak⟩
    fin_cases hmem <;> rfl
  | @change _ o ty hop hty ho himm =>
    have hshows := ho.shows op' pc
    -- settling fills in addresses and makes no constants
    have hne : ∀ v, o.settle S.program.labels f.frame op' pc ≠ .imm v := by
      intro v hv
      cases ho with
      | imm w => exact himm w rfl
      | reg => cases hv
      | place hplace =>
        obtain ⟨p, hp, -⟩ := hplace.spot op' pc
        cases hp.symm.trans hv
    have hafter : S.after f (S.stage f pc) pc ⟨op', some o, none, none, none⟩ = S.stage f pc := by
      rcases hop with rfl | rfl <;> cases o <;> rfl
    have hweak := hplain rfl
    rw [hafter] at hweak
    refine ⟨_, .change op' (o.settle S.program.labels f.frame op' pc), hj, ?_,
      .change hop hty hshows hne hweak⟩
    rcases hop with rfl | rfl <;> rfl
  | @jump l target c hl htarget hrv =>
    rw [Option.map_some, Operand.settle, hl] at hj
    -- the code holds the distance, from which the target is recovered
    have hto := toInt_labelTarget_rjmp hS.valid.short hsize (hS.labels hl)
    cases c with
    | none =>
      have hweak : (S.stage f (pc + 1)).Weaker (S.stage f pc).forget := hplain rfl
      exact ⟨_, _, hj, rfl, .jump (c := none) hto htarget (hweak.trans ⟨rfl, by simp⟩) (.inl hrv)⟩
    | some x => exact ⟨_, _, hj, rfl, .jump (c := some x) hto htarget (hplain rfl) (.inl hrv)⟩
  | @skip x k htarget hk hload =>
    exact ⟨_, _, hj, rfl,
      .jump (c := some x) rfl htarget (hplain rfl) (.inr ⟨rfl, k, hk, hload⟩)⟩
  | @call name n g hg hl hn hparams hret =>
    have hentry : g.entry ≤ S.program.code.size := by
      have hinside := hS.valid.inside g hg
      omega
    have hweak : (S.stage f (pc + 1)).Weaker
        ((S.stage f pc).call n.toInt.toNat (S.result? (.label name))) := hplain rfl
    rw [hn, Int.toNat_natCast] at hweak
    rw [Option.map_some, Operand.settle, hl] at hj
    exact ⟨_, _, hj, rfl, .call hg (toInt_labelTarget (by decide) hS.valid.short hentry) hn hparams
      hret hweak⟩
  | @host name n argc hn hserves =>
    have hweak : (S.stage f (pc + 1)).Weaker
        ((S.stage f pc).call n.toInt.toNat none) := hplain rfl
    rw [hn, Int.toNat_natCast] at hweak
    exact ⟨_, _, hj, rfl, .host hn hserves hweak⟩
  | ret hret => exact ⟨_, _, hj, rfl, .ret hret⟩

/-! ## Inside a call -/

/-- A step that stays in its call. It leaves the callers alone and the types of the arguments as
they are; every value that the next stage knows on the stack has just been pushed or was there. -/
structure Stays (S : TypedSetting) (f : Routine) (s s' : State) : Prop where
  frames : s'.frames = s.frames
  bp : s'.bp = s.bp
  callers : ∀ n, n + f.argc < s.bp → s'.stack[n]? = s.stack[n]?
  types : ∀ n < s.bp, s'.stackTypes[n]? = s.stackTypes[n]?
  temps : ∀ k temp, (S.stage f s'.pc).temps[k]? = some temp →
    (∃ v, s'.stack[s'.sp - (k + 1)]? = some v ∧ temp.Has v ∧ temp.born = s'.pc ∧ k = 0) ∨
      ∃ i, (S.stage f s.pc).temps[i]? = some temp ∧ s.sp - (i + 1) = s'.sp - (k + 1) ∧
        s'.stack[s'.sp - (k + 1)]? = s.stack[s'.sp - (k + 1)]?
  regs : (S.stage f s'.pc).Fits s'.registers

variable {s s' : State} {frame : CallFrame}

theorem getElem?_stackTypes_congr {n : Nat} (h : s'.stack[n]? = s.stack[n]?) :
    s'.stackTypes[n]? = s.stackTypes[n]? := by
  rw [State.stackTypes, State.stackTypes, Array.getElem?_map, Array.getElem?_map, h]

/-- A step that writes variables and registers. -/
theorem stays_of_spares (hS : S.Vetted) (hf : f ∈ S.routines) (h : S.Scene f frame s)
    (hs : Spares f s s') {pc' : Nat} (hnext : (S.stage f pc').temps = (S.stage f s.pc).temps)
    (hregs : (S.stage f pc').Fits s'.registers) (steps : Nat) :
    S.Stays f s { s' with pc := pc', steps := steps } where
  frames := hs.alike.frames
  bp := hs.alike.bp
  callers n hn := hs.kept n (.inl hn)
  types n _ := congrArg (·[n]?) hs.alike.stackTypes
  temps := by
    intro k temp hk
    have hsp : s'.sp = s.sp := by
      rw [← State.size_stackTypes, hs.alike.stackTypes, State.size_stackTypes]
    simp only [hnext] at hk
    have hlt := (List.getElem?_eq_some_iff.mp hk).1
    have hlen := length_temps_stage (hS.admitted hf) h.active.holds
    have hheight := h.active.height
    refine .inr ⟨k, hk, congrArg (· - (k + 1)) hsp.symm, ?_⟩
    -- the value lies above the slots of the variables
    refine hs.kept _ (.inr ?_)
    show s.bp + f.slots s.pc ≤ s'.sp - (k + 1)
    omega
  regs := hregs

/-- A step that changes the stack from a height above the link slot on. -/
theorem stays_of_agree {n : Nat} (hn : s.bp ≤ n) (hframes : s'.frames = s.frames)
    (hbp : s'.bp = s.bp) (hagree : ∀ i < n, s'.stack[i]? = s.stack[i]?)
    (htemps : ∀ k temp, (S.stage f s'.pc).temps[k]? = some temp →
      (∃ v, s'.stack[s'.sp - (k + 1)]? = some v ∧ temp.Has v ∧ temp.born = s'.pc ∧ k = 0) ∨
        ∃ i, (S.stage f s.pc).temps[i]? = some temp ∧ s.sp - (i + 1) = s'.sp - (k + 1) ∧
          s'.sp - (k + 1) < n)
    (hregs : (S.stage f s'.pc).Fits s'.registers) : S.Stays f s s' where
  frames := hframes
  bp := hbp
  callers i hi := hagree i (by omega)
  types i hi := getElem?_stackTypes_congr (hagree i (by omega))
  temps := by
    intro k temp hk
    rcases htemps k temp hk with hfresh | ⟨i, hi, hpos, hlt⟩
    · exact .inl hfresh
    · exact .inr ⟨i, hi, hpos, hagree _ hlt⟩
  regs := hregs

theorem getElem?_push_of_lt {v : Value} {i : Nat} (hi : i < s.sp) :
    (s.push v).stack[i]? = s.stack[i]? := by
  rw [State.push, Array.getElem?_push]
  exact if_neg hi.ne

theorem getElem?_shrink_of_lt {i n : Nat} (hi : i < n) : (s.stack.shrink n)[i]? = s.stack[i]? := by
  rw [Array.shrink_eq_take, Array.take_eq_extract, Array.getElem?_extract]
  by_cases h : i < s.stack.size
  · rw [if_pos (by omega), Nat.zero_add]
  · rw [if_neg (by omega), Array.getElem?_eq_none (by omega)]

/-- A value is pushed that belongs to no variable. -/
theorem stays_of_push (h : S.Scene f frame s) {v : Value} {temp : Temp} (hv : temp.Has v)
    (hborn : temp.born = s.pc + 1)
    (hnext : (S.stage f (s.pc + 1)).Weaker
      { S.stage f s.pc with temps := temp :: (S.stage f s.pc).temps }) :
    S.Stays f s (Machine.advance s.pc .next (s.push v)) := by
  have hbp := h.active.bp_lt
  have hsp : (Machine.advance s.pc .next (s.push v)).sp = s.sp + 1 := Array.size_push _
  refine stays_of_agree hbp.le rfl rfl (fun i hi => getElem?_push_of_lt hi) ?_ ?_
  · intro k temp' hk
    rw [hsp]
    have hk' : (temp :: (S.stage f s.pc).temps)[k]? = some temp' := by
      rw [← hk]
      exact congrArg (·[k]?) hnext.temps.symm
    cases k with
    | zero =>
      cases hk'
      refine .inl ⟨v, ?_, hv, hborn, rfl⟩
      exact Array.getElem?_push_size
    | succ k => exact .inr ⟨k, hk', by omega, by omega⟩
  · exact fun r ty hr => h.regs r ty (hnext.regs hr)

/-- A slot is reserved; nothing else lies on the stack above the variables. -/
theorem stays_of_reserve (h : S.Scene f frame s) {v : Value} (htemps : (S.stage f s.pc).temps = [])
    (hnext : (S.stage f (s.pc + 1)).Weaker (S.stage f s.pc)) :
    S.Stays f s (Machine.advance s.pc .next (s.push v)) := by
  have hbp := h.active.bp_lt
  refine stays_of_agree hbp.le rfl rfl (fun i hi => getElem?_push_of_lt hi) ?_ ?_
  · intro k temp hk
    have hnil : (S.stage f (s.pc + 1)).temps = [] := hnext.temps.trans htemps
    simp only [Machine.advance, hnil] at hk
    cases hk
  · exact fun r ty hr => h.regs r ty (hnext.regs hr)

/-- Values are taken off the stack that belong to no variable. -/
theorem stays_of_drop {n : Nat} (hbp : s.bp ≤ s.sp - n) (hframes : s'.frames = s.frames)
    (hbp' : s'.bp = s.bp) (hpc : s'.pc = s.pc + 1) (hsp : s'.sp = s.sp - n)
    (hagree : ∀ i < s.sp - n, s'.stack[i]? = s.stack[i]?)
    (hnext : (S.stage f (s.pc + 1)).temps = (S.stage f s.pc).temps.drop n)
    (hlen : (S.stage f s.pc).temps.length ≤ s.sp)
    (hregs : (S.stage f (s.pc + 1)).Fits s'.registers) : S.Stays f s s' := by
  refine stays_of_agree hbp hframes hbp' hagree ?_ (by rwa [hpc])
  intro k temp hk
  rw [hpc, hnext, List.getElem?_drop] at hk
  have hlt := (List.getElem?_eq_some_iff.mp hk).1
  rw [hsp]
  exact .inr ⟨n + k, hk, by omega, by omega⟩

/-! ## What a step does -/

/-- Every operand with an index that leads to a slot leads to an element of the array that it
names. -/
def Aims (S : TypedSetting) (f : Routine) (s : State) (op : Operation) : Prop :=
  ∀ p k v, .ptr p ∈ op.operands → p.index ≠ none → s.locate p = .ok (k, v) → S.Hits f s p k

/-- What a step of checked code does: it stays in its call, it enters a function with arguments of
the right types, or it returns. -/
inductive Outcome (S : TypedSetting) (f : Routine) (s s' : State) : Operation → Prop
  | stays {op : Operation} : S.Stays f s s' → Outcome S f s s' op
  | call {op : Operation} {g : Routine} {result : Option Ty} : g ∈ S.routines →
    (∀ (k : Nat) (ty : Ty), (S.header g).params[k]? = some ty →
      (S.stage f s.pc).temps[k]?.bind Temp.ty = some ty) →
    (∀ ty, result = some ty → ty = (S.header g).ret ∧ ty ≠ .void) →
    (S.stage f (s.pc + 1)).Weaker ((S.stage f s.pc).call g.argc result) →
    s' = Machine.advance s.pc (.jump g.entry) (Machine.enter s.pc g.argc s) → Outcome S f s s' op
  | ret {frame : CallFrame} {rest : List CallFrame} : s.frames = frame :: rest →
    (S.header f).ret = .void ∨ (S.stage f s.pc).regs .rv = some (S.header f).ret ∨
      s.pc + 1 = f.entry + f.code.size →
    s' = Machine.advance s.pc (.jump frame.returnPc) (Machine.leave frame rest s) →
    Outcome S f s s' .ret

section Step

variable {σ : Type} {hosts : Table (HostFunction σ)} {j : Instr} {op : Operation} {w w' : σ}

/-- The values on top of the variables are on the stack. -/
theorem Scene.length_temps (hS : S.Vetted) (hf : f ∈ S.routines) (h : S.Scene f frame s) :
    s.bp + f.slots s.pc + (S.stage f s.pc).temps.length = s.sp := by
  have hlen := length_temps_stage (hS.admitted hf) h.active.holds
  have hheight := h.active.height
  omega

/-- The arguments of a host function are on the stack. -/
theorem Serves.le_length {t : Stage} {addr : Nat} {name : String} {argc : Nat}
    (h : S.Serves f t addr name argc) : argc ≤ t.temps.length := by
  obtain ⟨_, _, _, _, _, _, _, _, _, -, -, -, -, -, -, -, -, -, hargs⟩ := h
  by_contra hlt
  obtain ⟨temp, -, -, hk, -⟩ := hargs t.temps.length (by omega)
  simp at hk

/-- A value of a known type is written to a register. -/
theorem stays_of_setRegister (hS : S.Vetted) (hf : f ∈ S.routines) (h : S.Scene f frame s) {x : Reg}
    {v : Value} {ty : Ty} (hty : v.ty = ty)
    (hnext : (S.stage f (s.pc + 1)).Weaker ((S.stage f s.pc).set x (some ty))) :
    S.Stays f s (Machine.advance s.pc .next (s.setRegister x v)) :=
  stays_of_spares hS hf h (spares_setRegister f s x v) hnext.temps
    ((h.regs.set x (by simp [hty])).weaker hnext) _

/-- A variable is written. -/
theorem stays_of_write (hS : S.Vetted) (hf : f ∈ S.routines) (h : S.Scene f frame s) {p : Ptr}
    {ty : Ty} {v : Value} (hspot : S.Spot f (S.stage f s.pc) p ty)
    (hhit : ∀ k w, p.index ≠ none → s.locate p = .ok (k, w) → S.Hits f s p k)
    (hw : s.write (.ptr p) v = .ok s') (hnext : (S.stage f (s.pc + 1)).Weaker (S.stage f s.pc)) :
    S.Stays f s (Machine.advance s.pc .next s') := by
  obtain ⟨hs, hregs⟩ := h.spares hS hf hspot hhit hw
  refine stays_of_spares hS hf h hs hnext.temps ?_ _
  rw [hregs]
  exact h.regs.weaker hnext

/-- The top value is popped into a register. -/
theorem stays_of_pop (hS : S.Vetted) (hf : f ∈ S.routines) (h : S.Scene f frame s) {x : Reg}
    {v : Value} {temp : Temp} {rest : List Temp} (htemps : (S.stage f s.pc).temps = temp :: rest)
    (hnext : (S.stage f (s.pc + 1)).Weaker ((S.stage f s.pc).pop x))
    (hv : s.stack.back? = some v) :
    S.Stays f s (Machine.advance s.pc .next ((Machine.dropOne s).setRegister x v)) := by
  have hlen := h.length_temps hS hf
  have hslots := Setting.slots_pos f s.pc
  obtain ⟨v', hv', hhas⟩ := h.temps 0 temp (by rw [htemps]; rfl)
  rw [Array.back?_eq_getElem?] at hv
  cases hv.symm.trans hv'
  have hagree (i : Nat) (hi : i < s.sp - 1) : s.stack.pop[i]? = s.stack[i]? := by
    rw [Array.getElem?_pop]
    exact if_pos hi
  refine stays_of_drop (n := 1) ?_ rfl rfl rfl Array.size_pop hagree ?_ (by omega) ?_
  · rw [htemps, List.length_cons] at hlen
    omega
  · rw [hnext.temps, Stage.temps_pop, List.drop_one]
  · refine Stage.Fits.weaker (t := (S.stage f s.pc).pop x) ?_ hnext
    show ((S.stage f s.pc).set x ((S.stage f s.pc).temps.head?.bind Temp.ty)).Fits _
    rw [htemps]
    exact h.regs.set x hhas

/-- **What a step of checked code does.** -/
theorem outcome_of_obeys (hS : S.Vetted) (hf : f ∈ S.routines) (h : S.Scene f frame s)
    (ho : S.Obeys f s.pc op) (haims : S.Aims f s op)
    (ht : Machine.transition hosts j op s w = .ok (s', w')) : S.Outcome f s s' op := by
  have hread {o : Operand} {ty : Ty} {v : Value} (hshows : S.Shows f (S.stage f s.pc) o ty)
      (hmem : o ∈ op.operands) (hv : s.read o = .ok v) : v.ty = ty := by
    refine (h.read hS hf hshows ?_).1 v hv
    rintro p k v rfl
    exact haims p k v hmem
  have he := Machine.effect_of_transition ht
  -- only calls and returns leave the routine; all else goes on in a stage that knows no more
  cases ho with
  | push hshows hnext =>
    cases he with
    | push hv =>
      have hty := hread hshows (by simp [Operation.operands]) hv
      exact .stays (stays_of_push h (fun ty' hty' => by cases hty'; exact hty) rfl hnext)
  | reserve htemps hnext =>
    cases he
    exact .stays (stays_of_reserve h htemps hnext)
  | pop htemps hnext =>
    cases he with
    | pop hv hw =>
      cases hw
      exact .stays (stays_of_pop hS hf h htemps hnext hv)
  | load hnext =>
    cases he
    exact .stays (stays_of_setRegister hS hf h rfl hnext)
  | copy hshows hnext =>
    cases he with
    | move hv hw =>
      cases hw
      exact .stays (stays_of_setRegister hS hf h (hread hshows (by simp [Operation.operands]) hv)
        hnext)
  | @store p o target source hspot hshows ha hnext =>
    cases he with
    | move _ hw =>
      exact .stays (stays_of_write hS hf h hspot
        (fun k w => haims p k w (by simp [Operation.operands])) hw hnext)
  | convert hconv hcell hnext =>
    cases he with
    | move _ hw =>
      exact .stays (stays_of_write hS hf h (.global hcell) (fun k w hne => absurd rfl hne) hw hnext)
  | compute hx hy hty hnext =>
    cases he with
    | compute ha hb hv hw =>
      cases ha
      cases hb
      cases hw
      rw [← h.regs _ _ hx, ← h.regs _ _ hy] at hty
      exact .stays (stays_of_setRegister hS hf h
        ((alu_of_aluType hty).1 _ (liftArithmetic_eq_ok.mp hv)) hnext)
  | @change op o ty hop hty hshows himm hnext =>
    cases he with
    | change ha hv hw =>
      have haty := hread hshows (by simp [Operation.operands]) ha
      obtain ⟨_, hv', hvty⟩ := increment_of_number hop (haty ▸ hty)
      cases hv'.symm.trans (liftArithmetic_eq_ok.mp hv)
      -- the new value has the type of the old one, so what is known of the place stays true
      cases hshows with
      | imm w => exact absurd rfl (himm w)
      | reg hx =>
        cases ha
        cases hw
        exact .stays (stays_of_spares hS hf h (spares_setRegister f s _ _) hnext.temps
          ((h.regs.keep hvty).weaker hnext) _)
      | @spot p _ hspot =>
        exact .stays (stays_of_write hS hf h hspot
          (fun k w => haims p k w (by simp [Operation.operands])) hw hnext)
  | jump hto htarget hnext _ =>
    cases he with
    | jump _ hn hpc =>
      cases hn
      rw [if_pos rfl, hto, Setting.jumpTarget_natCast] at hpc
      cases hpc
      exact .stays (stays_of_spares hS hf h (.refl f s) htarget.temps (h.regs.weaker htarget) _)
    | pass _ =>
      exact .stays (stays_of_spares hS hf h (.refl f s) hnext.temps (h.regs.weaker hnext) _)
  | call hg hto hn hparams hresult hnext =>
    cases he with
    | call _ hcount hargc _ htarget hpc =>
      cases hcount
      cases htarget
      cases hargc.symm.trans (Setting.argumentCount_of_toInt hn)
      rw [hto, Setting.jumpTarget_natCast] at hpc
      cases hpc
      exact .call hg hparams hresult hnext rfl
  | @host name n argc hn hserves hnext =>
    cases he with
    | host hcount hargc _ _ =>
      cases hcount
      cases hargc.symm.trans (Setting.argumentCount_of_toInt hn)
      have hlen := h.length_temps hS hf
      have hargs := hserves.le_length
      have hsize : (s.stack.shrink (s.stack.size - argc)).size = s.sp - argc :=
        Setting.size_shrink_of_le (Nat.sub_le _ _)
      refine .stays (stays_of_drop (n := argc) (by omega) rfl rfl rfl hsize
        (fun i hi => getElem?_shrink_of_lt hi) ?_ (by omega) ?_)
      · rw [hnext.temps, Stage.temps_call]
      · exact (Stage.fits_call_none _ _ _).weaker hnext
    | call hnot => exact absurd rfl (hnot name)
  | ret hret =>
    cases he with
    | ret hframes _ => exact .ret hframes (hret.imp_right (Or.imp_left And.left)) rfl

/-! ## How a step can fail -/

/-- A fault that is not for the sake of types: no index is of the wrong type, no arithmetic is on
operands of the wrong types, and the only conversion is that of the result of a host function. -/
structure Tolerated (S : TypedSetting) (s : State) (op : Operation) (e : Fault) : Prop where
  index : ∀ v, e ≠ .invalidIndex v
  arithmetic : ∀ cause, e = .arithmetic cause → cause.isTyping = false
  conversion : ∀ cause, e = .conversion cause →
    ∃ decl o, op = .move (.ptr ⟨.global, (o : Nat), none⟩) (.reg .rv) ∧ S.Converts s.pc decl o ∧
      coerce decl.ret (s.registers.get .rv) = .error cause

theorem tolerated_outOfBounds (p : Ptr) (slot : Int) : S.Tolerated s op (.outOfBounds p slot) :=
  ⟨by simp, by simp, by simp⟩

/-- Arithmetic fails for a reason that no types could rule out. -/
theorem tolerated_of_alu {code : OpCode} {a b : Value} {ty : Ty} {e : Fault}
    (hty : aluType code a.ty b.ty = some ty) (he : liftArithmetic (alu code a b) = .error e) :
    S.Tolerated s op e := by
  cases hv : alu code a b with
  | ok v =>
    rw [hv] at he
    cases he
  | error cause =>
    rw [hv] at he
    cases he
    refine ⟨by simp, ?_, by simp⟩
    rintro _ ⟨⟩
    exact (alu_of_aluType hty).2 cause hv

/-- The result of a host function cannot be converted to its declared type. -/
theorem tolerated_of_convert (hS : S.Vetted) (h : S.Scene f frame s) {decl : HostDecl} {o : Nat}
    (hconv : S.Converts s.pc decl o) {e : Fault}
    (he : s.write (.ptr ⟨.global, o, none⟩) (s.registers.get .rv) = .error e) :
    S.Tolerated s (.move (.ptr ⟨.global, o, none⟩) (.reg .rv)) e := by
  simp only [State.write, bind_eq_error] at he
  rcases he with he | ⟨⟨k, old⟩, hl, he | ⟨w, -, ⟨⟩⟩⟩
  · obtain ⟨slot, rfl⟩ := outOfBounds_of_locate (fun x hx => by cases hx) he
    exact tolerated_outOfBounds _ _
  · obtain ⟨-, -, -, -, -, -, -, -, hcell⟩ := id hconv
    obtain rfl := eq_of_locate hl
    have hty : old.ty = decl.ret :=
      h.ty_of_block (hS.globals.cell hcell) (by simp [State.origin]) (by simp [State.origin])
        (State.getElem?_of_locate hl)
    rw [hty] at he
    cases hc : coerce decl.ret (s.registers.get .rv) with
    | ok w =>
      rw [hc] at he
      cases he
    | error cause =>
      rw [hc] at he
      cases he
      refine ⟨by simp, by simp, ?_⟩
      rintro _ ⟨⟩
      exact ⟨decl, o, rfl, hconv, hc⟩

/-- **How a step of checked code can fail.** -/
theorem tolerated_of_obeys (hS : S.Vetted) (hf : f ∈ S.routines) (h : S.Scene f frame s)
    (ho : S.Obeys f s.pc op) (haims : S.Aims f s op) {e : Fault}
    (he : Machine.transition hosts j op s w = .error e) : S.Tolerated s op e := by
  have hread {o : Operand} {ty : Ty} (hshows : S.Shows f (S.stage f s.pc) o ty)
      (hmem : o ∈ op.operands) : (∀ v, s.read o = .ok v → v.ty = ty) ∧
        ∀ e, s.read o = .error e → S.Tolerated s op e := by
    obtain ⟨hok, herr⟩ := h.read hS hf hshows (by
      rintro p k v rfl
      exact haims p k v hmem)
    refine ⟨hok, ?_⟩
    intro e he
    obtain ⟨p, slot, rfl⟩ := herr e he
    exact tolerated_outOfBounds p slot
  have hwrite {p : Ptr} {ty : Ty} {v : Value} (hspot : S.Spot f (S.stage f s.pc) p ty)
      (hmem : .ptr p ∈ op.operands) (ha : assignable ty v.ty = true) :
      ∀ e, s.write (.ptr p) v = .error e → S.Tolerated s op e := by
    intro e he
    obtain ⟨slot, rfl⟩ := h.write hS hf hspot ha (fun k w => haims p k w hmem) he
    exact tolerated_outOfBounds p slot
  cases ho with
  | push hshows hnext =>
    simp only [Machine.transition, bind_eq_error] at he
    rcases he with he | ⟨v, -, ⟨⟩⟩
    exact (hread hshows (by simp [Operation.operands])).2 e he
  | reserve => cases he
  | pop =>
    simp only [Machine.transition] at he
    split at he
    · cases he
      exact ⟨by simp, by simp, by simp⟩
    · cases he
  | load => cases he
  | copy hshows hnext =>
    simp only [Machine.transition, bind_eq_error] at he
    rcases he with he | ⟨v, -, ⟨⟨⟩⟩ | ⟨s₁, -, ⟨⟩⟩⟩
    exact (hread hshows (by simp [Operation.operands])).2 e he
  | store hspot hshows ha hnext =>
    simp only [Machine.transition, bind_eq_error] at he
    rcases he with he | ⟨v, hv, he | ⟨s₁, -, ⟨⟩⟩⟩
    · exact (hread hshows (by simp [Operation.operands])).2 e he
    · have hty := (hread hshows (by simp [Operation.operands])).1 v hv
      exact hwrite hspot (by simp [Operation.operands]) (hty ▸ ha) e he
  | convert hconv hw hnext =>
    simp only [Machine.transition, bind_eq_error] at he
    rcases he with ⟨⟨⟩⟩ | ⟨v, ⟨⟩, he | ⟨s₁, -, ⟨⟩⟩⟩
    exact tolerated_of_convert hS h hconv he
  | compute hx hy hty hnext =>
    simp only [Machine.transition, bind_eq_error] at he
    rcases he with ⟨⟨⟩⟩ | ⟨a, ⟨⟩, ⟨⟨⟩⟩ | ⟨b, ⟨⟩, he | ⟨v, -, ⟨⟨⟩⟩ | ⟨s₁, -, ⟨⟩⟩⟩⟩⟩
    rw [← h.regs _ _ hx, ← h.regs _ _ hy] at hty
    exact tolerated_of_alu hty he
  | @change op o ty hop hty hshows himm hnext =>
    simp only [Machine.transition, bind_eq_error] at he
    rcases he with he | ⟨a, ha, he⟩
    · exact (hread hshows (by simp [Operation.operands])).2 e he
    · -- the operand is a number, and it stays one
      have haty := (hread hshows (by simp [Operation.operands])).1 a ha
      obtain ⟨v, hv, hvty⟩ := increment_of_number hop (haty ▸ hty)
      rw [hv] at he
      rcases he with ⟨⟨⟩⟩ | ⟨v', ⟨⟩, he | ⟨s₁, -, ⟨⟩⟩⟩
      cases hshows with
      | imm w => exact absurd rfl (himm w)
      | reg hx => cases he
      | spot hspot =>
        refine hwrite hspot (by simp [Operation.operands]) ?_ e he
        rw [hvty, haty]
        rcases hty with rfl | rfl <;> rfl
  | @jump n c target hto htarget hnext _ =>
    have htaken : ∃ taken, Machine.isTaken s (c.map .reg) = .ok taken := by
      cases c with
      | none => exact ⟨true, rfl⟩
      | some x => exact ⟨_, rfl⟩
    obtain ⟨taken, htaken⟩ := htaken
    cases taken <;>
      simp [Machine.transition, htaken, Setting.integer_imm, hto, Setting.jumpTarget_natCast, bind,
        Except.bind] at he
  | @call t n g result hg hto hn hparams hresult hnext =>
    simp only [Machine.transition, Setting.integer_imm, bind, Except.bind,
      Setting.argumentCount_of_toInt hn, hto, Setting.jumpTarget_natCast] at he
    split at he
    · cases he
      exact ⟨by simp, by simp, by simp⟩
    · cases he
  | @host name n argc hn hserves hnext =>
    simp only [Machine.transition, Setting.integer_imm, bind, Except.bind,
      Setting.argumentCount_of_toInt hn] at he
    split at he
    · cases he
      exact ⟨by simp, by simp, by simp⟩
    · split at he
      · cases he
        exact ⟨by simp, by simp, by simp⟩
      · cases he
  | ret hret =>
    simp only [Machine.transition] at he
    split at he
    · cases he
      exact ⟨by simp, by simp, by simp⟩
    · split at he
      · cases he
        exact ⟨by simp, by simp, by simp⟩
      · cases he

end Step

end TypedSetting

end Stepwise
