import Mathlib
import Stepwise.Proofs.Compilation
import Stepwise.Proofs.Transition

/-!
# Coherent states

A state of a compiled program that its code can have reached: in every call in progress the stack is
as high as the address says, the reserved slots hold values of the types of their variables, and the
caller is coherent too. Every step keeps a state coherent, whatever values the program computes and
whatever the host returns, because a write never changes the type of a slot.

## Main definitions

* `State.Alike`: states that differ in values only
* `Setting.Reaches`, `Setting.Performs`: the operands and operations that compiled code has
* `Setting.Coherent`: the states that compiled code can reach

## Main results

* `Setting.performs_of_holds`: an instruction that keeps the discipline decodes to such an operation
* `Setting.Steady.step`: a step keeps a state coherent
-/

namespace Stepwise.State

/-! ## What a write leaves -/

/-- The types of the values on the stack. -/
def stackTypes (s : State) : Array Ty := s.stack.map Value.ty

/-- The types of the values in the global region. -/
def globalTypes (s : State) : Array Ty := s.globals.map Value.ty

/-- Two states differ in registers and in values of slots only. -/
structure Alike (s s' : State) : Prop where
  pc : s'.pc = s.pc
  bp : s'.bp = s.bp
  frames : s'.frames = s.frames
  stackTypes : s'.stackTypes = s.stackTypes
  globalTypes : s'.globalTypes = s.globalTypes

theorem Alike.refl (s : State) : Alike s s := ⟨rfl, rfl, rfl, rfl, rfl⟩

@[simp]
theorem size_stackTypes (s : State) : s.stackTypes.size = s.sp := Array.size_map

theorem alike_setRegister (s : State) (r : Reg) (v : Value) : Alike s (s.setRegister r v) :=
  ⟨rfl, rfl, rfl, rfl, rfl⟩

/-- A slot that is found has its content. -/
theorem getElem?_of_locate {s : State} {p : Ptr} {i : Nat} {v : Value}
    (h : s.locate p = .ok (i, v)) : (s.region p.base)[i]? = some v := by
  simp only [locate, bind_eq_ok] at h
  obtain ⟨index, -, h⟩ := h
  split at h
  · split at h
    next w hw =>
      cases h
      unfold slot? at hw
      split at hw
      · exact hw
      · cases hw
    · cases h
  · cases h

theorem map_ty_setIfInBounds {xs : Array Value} {i : Nat} {old new : Value}
    (hi : xs[i]? = some old) (hty : new.ty = old.ty) :
    (xs.setIfInBounds i new).map Value.ty = xs.map Value.ty := by
  ext j hj hj'
  · simp
  · have hlt : j < xs.size := by simpa using hj'
    rw [Array.getElem_map, Array.getElem_map, Array.getElem_setIfInBounds hlt]
    split
    next hij =>
      subst hij
      obtain ⟨hlt, rfl⟩ := Array.getElem?_eq_some_iff.mp hi
      exact hty
    · rfl

/-- **A write keeps the type of every slot**: the value is converted to the type that is there. -/
theorem alike_of_write {s s' : State} {o : Operand} {v : Value} (h : s.write o v = .ok s') :
    Alike s s' := by
  unfold write at h
  split at h
  · cases h
    exact alike_setRegister s _ v
  next p =>
    simp only [bind_eq_ok] at h
    obtain ⟨⟨i, old⟩, hl, new, hc, h⟩ := h
    have hslot := getElem?_of_locate hl
    have hty : new.ty = old.ty := ty_of_coerce (liftConversion_eq_ok.mp hc)
    cases h
    obtain ⟨base, offset, index⟩ := p
    cases base with
    | frame => exact ⟨rfl, rfl, rfl, map_ty_setIfInBounds hslot hty, rfl⟩
    | global => exact ⟨rfl, rfl, rfl, rfl, map_ty_setIfInBounds hslot hty⟩
  · cases h

end Stepwise.State

namespace Stepwise.Setting

/-! ## The operations of compiled code -/

/-- An operand of compiled code is there at height `h`, as far as it has no index. -/
def Reaches (S : Setting) (f : Routine) (h : Int) : Operand → Prop
  | .imm _ | .reg _ => True
  | .ptr ⟨.global, offset, none⟩ => 0 ≤ offset ∧ offset < S.globals.values.size
  | .ptr ⟨.frame, offset, none⟩ => -(f.argc : Int) ≤ offset ∧ offset < h
  | .ptr ⟨_, _, some x⟩ => x = .ix
  | _ => False

/-- An operand of compiled code that can be written. -/
def Stores (S : Setting) (f : Routine) (h : Int) (o : Operand) : Prop :=
  S.Reaches f h o ∧ ∀ v, o ≠ .imm v

/-- An operation that keeps the discipline at an address of a routine: its operands are there, and
the counts at the addresses where it can go on are as it leaves the stack. -/
inductive Performs (S : Setting) (f : Routine) (pc : Nat) (j : Instr) : Operation → Prop
  | compute {op : OpCode} {dest src : Operand} : S.Stores f (f.height pc) dest →
    S.Reaches f (f.height pc) src → j.reserves = false →
    f.At (f.height pc) (f.slots pc) (pc + 1) → Performs S f pc j (.compute op dest src)
  | change {op : OpCode} {dest : Operand} : S.Stores f (f.height pc) dest → j.reserves = false →
    f.At (f.height pc) (f.slots pc) (pc + 1) → Performs S f pc j (.change op dest)
  | move {dest src : Operand} : S.Stores f (f.height pc) dest → S.Reaches f (f.height pc) src →
    j.reserves = false → f.At (f.height pc) (f.slots pc) (pc + 1) →
    Performs S f pc j (.move dest src)
  | load {x : Reg} {v : Value} : j.reserves = false → f.At (f.height pc) (f.slots pc) (pc + 1) →
    Performs S f pc j (.load x v)
  | push {src : Operand} : S.Reaches f (f.height pc) src → j.reserves = false →
    f.At (f.height pc + 1) (f.slots pc) (pc + 1) → Performs S f pc j (.push src)
  | reserve {v : Value} : f.height pc = f.slots pc → f.frame.Owns (f.slots pc) v.ty →
    j.reserves = true → f.At (f.height pc + 1) (f.slots pc + 1) (pc + 1) →
    Performs S f pc j (.push (.imm v))
  | pop {x : Reg} : f.slots pc < f.height pc → j.reserves = false →
    f.At (f.height pc - 1) (f.slots pc) (pc + 1) → Performs S f pc j (.pop (.reg x))
  | jump {t : Int64} {condition : Option Operand} {target : Nat} : (pc : Int) + t.toInt = target →
    (∀ c ∈ condition, ∃ x, c = .reg x) → j.reserves = false →
    f.At (f.height pc) (f.slots pc) target → f.At (f.height pc) (f.slots pc) (pc + 1) →
    Performs S f pc j (.jump true (.imm (.int t)) condition)
  | host {name : String} {n : Int64} {argc : Nat} : n.toInt = argc →
    (f.slots pc : Int) + argc ≤ f.height pc → j.reserves = false →
    f.At (f.height pc - argc) (f.slots pc) (pc + 1) →
    Performs S f pc j (.call (.host name) (.imm (.int n)))
  | call {t n : Int64} {g : Routine} : g ∈ S.routines → t.toInt = g.entry → n.toInt = g.argc →
    (f.slots pc : Int) + g.argc ≤ f.height pc → j.reserves = false →
    f.At (f.height pc - g.argc) (f.slots pc) (pc + 1) →
    Performs S f pc j (.call (.imm (.int t)) (.imm (.int n)))
  | ret : j.reserves = false → Performs S f pc j .ret

variable {S : Setting} {f : Routine} {pc : Nat}

theorem reaches_settle {h : Int} {o : Operand} {op : OpCode} (ho : S.Reads f h o) :
    S.Reaches f h (o.settle S.program.labels f.frame op pc) := by
  unfold Reads at ho
  split at ho
  · trivial
  · trivial
  · exact ho
  · exact ho
  · obtain ⟨e, he, hlow, hhigh⟩ := ho
    simp only [Operand.settle, FrameLayout.offset?, he, Option.map_some]
    exact ⟨hlow, hhigh⟩
  · obtain ⟨rfl, e, he⟩ := ho
    simp only [Operand.settle, FrameLayout.offset?, he, Option.map_some]
    rfl
  · exact ho.elim

theorem stores_settle {h : Int} {o : Operand} {op : OpCode} (ho : S.Writes f h o) :
    S.Stores f h (o.settle S.program.labels f.frame op pc) := by
  refine ⟨reaches_settle ho.1, fun v hv => ?_⟩
  obtain ⟨hread, himm⟩ := ho
  unfold Reads at hread
  split at hread
  · exact himm _ rfl
  · cases hv
  · cases hv
  · cases hv
  · obtain ⟨e, he, -⟩ := hread
    simp [Operand.settle, FrameLayout.offset?, he] at hv
  · obtain ⟨-, e, he⟩ := hread
    simp [Operand.settle, FrameLayout.offset?, he] at hv
  · exact hread

/-- A linked program whose routines keep the discipline, and that is not too long for addresses to
be machine words. -/
structure Valid (S : Setting) : Prop where
  short : S.program.code.size < 2 ^ 63
  inside : ∀ f ∈ S.routines, f.entry + f.code.size ≤ S.program.code.size
  nonempty : ∀ f ∈ S.routines, 0 < f.code.size
  runs : ∀ f ∈ S.routines, ∀ pc, f.Holds pc → S.Runs f pc
  unique : ∀ f ∈ S.routines, ∀ g ∈ S.routines, ∀ pc, f.Holds pc → g.Holds pc → f = g

theorem Valid.lt_size (hv : S.Valid) (hf : f ∈ S.routines) (hpc : f.Holds pc) :
    pc < S.program.code.size := by
  have h := hv.inside f hf
  have h' := hpc.2
  omega

/-- **An instruction that keeps the discipline decodes to such an operation.** -/
theorem performs_of_holds (hv : S.Valid) (hf : f ∈ S.routines) (hpc : f.Holds pc) :
    ∃ j op, S.program.code[pc]? = some j ∧ j.decode = .ok op ∧ S.Performs f pc j op := by
  obtain ⟨i, hi, hadm, hnext⟩ := hv.runs f hf pc hpc
  obtain ⟨j, hj, hop, hd, hs, hc⟩ := exists_of_placed hi
  have hpcs := hv.lt_size hf hpc
  obtain ⟨op, dest, src, comment, origin⟩ := i
  obtain ⟨op', dest', src', comment', origin'⟩ := j
  simp only at hop hd hs hc
  subst hop hd hs hc
  unfold Admits at hadm
  simp only at hadm
  split at hadm
  case h_1 | h_2 | h_3 | h_4 | h_5 | h_6 | h_7 | h_8 =>
    exact ⟨_, _, hj, rfl, .compute (stores_settle hadm.1) (reaches_settle hadm.2) rfl
      (by simpa [Instr.rise, Instr.reserves] using hnext)⟩
  case h_9 =>
    exact ⟨_, _, hj, rfl, .move (stores_settle hadm.1) (reaches_settle hadm.2) rfl
      (by simpa [Instr.rise, Instr.reserves] using hnext)⟩
  case h_10 | h_11 =>
    exact ⟨_, _, hj, rfl, .change (stores_settle hadm) rfl
      (by simpa [Instr.rise, Instr.reserves] using hnext)⟩
  case h_12 =>
    exact ⟨_, _, hj, rfl, .load rfl (by simpa [Instr.rise, Instr.reserves] using hnext)⟩
  case h_13 =>
    -- a push with a comment is a reservation
    cases comment' with
    | none =>
      exact ⟨_, _, hj, rfl, .push (reaches_settle hadm.1) rfl
        (by simpa [Instr.rise, Instr.reserves] using hnext)⟩
    | some text =>
      obtain ⟨hh, v, rfl, howns⟩ := hadm.2 rfl
      exact ⟨_, _, hj, rfl, .reserve hh howns rfl
        (by simpa [Instr.rise, Instr.reserves] using hnext)⟩
  case h_14 =>
    refine ⟨_, _, hj, rfl, .pop hadm rfl ?_⟩
    have hat : f.At (f.height pc + -1) (f.slots pc) (pc + 1) := by
      simpa [Instr.rise, Instr.reserves] using hnext
    exact hat
  case h_15 l =>
    obtain ⟨addr, hl, hat⟩ := hadm
    rw [Option.map_some, Operand.settle, hl] at hj
    exact ⟨_, _, hj, rfl, .jump
      (toInt_labelTarget_rjmp hv.short hpcs (hv.lt_size hf hat.holds).le) (by simp) rfl hat
      (by simpa [Instr.rise, Instr.reserves] using hnext)⟩
  case h_16 l x =>
    obtain ⟨addr, hl, hat⟩ := hadm
    rw [Option.map_some, Operand.settle, hl] at hj
    exact ⟨_, _, hj, rfl, .jump
      (toInt_labelTarget_rjmp hv.short hpcs (hv.lt_size hf hat.holds).le)
      (by simp [Operand.settle]) rfl hat (by simpa [Instr.rise, Instr.reserves] using hnext)⟩
  case h_17 n x =>
    obtain ⟨rfl, hat⟩ := hadm
    exact ⟨_, _, hj, rfl, .jump rfl (by simp [Operand.settle]) rfl hat
      (by simpa [Instr.rise, Instr.reserves] using hnext)⟩
  case h_18 t n =>
    obtain ⟨argc, hn, hle, hcalls, -⟩ := hadm
    have hat : f.At (f.height pc - argc) (f.slots pc) (pc + 1) := by
      simpa [Instr.rise, Instr.reserves, hn, Int.sub_eq_add_neg] using hnext
    unfold Calls at hcalls
    split at hcalls
    · exact ⟨_, _, hj, rfl, .host hn hle rfl hat⟩
    · obtain ⟨g, hg, hl, rfl, -⟩ := hcalls
      rw [Option.map_some, Operand.settle, hl] at hj
      have hentry : g.entry < S.program.code.size := by
        have h₁ := hv.inside g hg
        have h₂ := hv.nonempty g hg
        omega
      exact ⟨_, _, hj, rfl, .call hg (toInt_labelTarget (by decide) hv.short hentry.le) hn hle rfl hat⟩
    · exact hcalls.elim
  case h_19 => exact ⟨_, _, hj, rfl, .ret rfl⟩
  case h_20 => exact hadm.elim

/-! ## The code outside of functions -/

/-- The instruction at an address jumps to the end of the program. -/
def Ends (S : Setting) (pc : Nat) : Prop :=
  ∃ j t, S.program.code[pc]? = some j ∧ j.decode = .ok (.jump false (.imm (.int t)) none) ∧
    t.toInt = S.program.code.size

/-- The instruction at an address calls a function without parameters, and the next one jumps to the
end of the program. -/
def Boots (S : Setting) (pc : Nat) : Prop :=
  ∃ j t n g, S.program.code[pc]? = some j ∧ j.decode = .ok (.call (.imm (.int t)) (.imm (.int n))) ∧
    g ∈ S.routines ∧ t.toInt = g.entry ∧ n.toInt = 0 ∧ g.argc = 0 ∧ S.Ends (pc + 1)

/-- No function is running at an address. -/
def AtRest (S : Setting) (pc : Nat) : Prop :=
  pc = S.program.code.size ∨ S.Ends pc ∨ S.Boots pc

/-! ## Coherent states -/

/-- A call of a routine is in progress: execution is or will go on at `pc`, the link slot is at `bp`
and the stack has `sp` values, with these types. -/
structure Active (types : Array Ty) (f : Routine) (frame : CallFrame) (pc bp sp : Nat) : Prop where
  holds : f.Holds pc
  argc : frame.argc = f.argc
  argc_le : f.argc ≤ bp
  height : (sp : Int) = bp + f.height pc
  slots_le : (f.slots pc : Int) ≤ f.height pc
  typed : ∀ k, 0 < k → k < f.slots pc → ∃ ty, types[bp + k]? = some ty ∧ f.frame.Owns k ty

/-- All calls in progress are as the code says, from the innermost one outward. -/
def Coherent (S : Setting) (types : Array Ty) : List CallFrame → Nat → Nat → Nat → Prop
  | [], pc, bp, sp => S.AtRest pc ∧ bp = 0 ∧ sp = 0
  | frame :: rest, pc, bp, sp =>
    ∃ f ∈ S.routines, Active types f frame pc bp sp ∧
      Coherent S types rest frame.returnPc frame.bp (bp - f.argc)

theorem slots_pos (f : Routine) (pc : Nat) : 0 < f.slots pc := by
  unfold Routine.slots
  omega

namespace Active

variable {types types' : Array Ty} {f : Routine} {frame : CallFrame} {pc pc' bp sp : Nat}

theorem bp_lt (h : Active types f frame pc bp sp) : bp < sp := by
  have h₁ := h.height
  have h₂ := h.slots_le
  have h₃ := slots_pos f pc
  omega

/-- Only the values below the top of the stack matter. -/
theorem congr (h : Active types f frame pc bp sp) (ht : ∀ i < sp, types'[i]? = types[i]?) :
    Active types' f frame pc bp sp := by
  refine { h with typed := fun k hk hk' => ?_ }
  obtain ⟨ty, hty, howns⟩ := h.typed k hk hk'
  have h₁ := h.height
  have h₂ := h.slots_le
  exact ⟨ty, by rw [ht _ (by omega), hty], howns⟩

/-- Execution goes on at an address with the same counts. -/
theorem move (h : Active types f frame pc bp sp) (hat : f.At (f.height pc) (f.slots pc) pc') :
    Active types f frame pc' bp sp where
  holds := hat.holds
  argc := h.argc
  argc_le := h.argc_le
  height := by rw [hat.height, h.height]
  slots_le := by rw [hat.height, hat.slots]; exact h.slots_le
  typed := by rw [hat.slots]; exact h.typed

/-- A value is pushed that belongs to no variable. -/
theorem push (h : Active types f frame pc bp sp) (hat : f.At (f.height pc + 1) (f.slots pc) pc') :
    Active types f frame pc' bp (sp + 1) where
  holds := hat.holds
  argc := h.argc
  argc_le := h.argc_le
  height := by
    have h₁ := h.height
    rw [hat.height]
    push_cast
    omega
  slots_le := by
    have h₁ := h.slots_le
    rw [hat.height, hat.slots]
    omega
  typed := by rw [hat.slots]; exact h.typed

/-- The next slot is reserved. -/
theorem reserve (h : Active types f frame pc bp sp)
    (hat : f.At (f.height pc + 1) (f.slots pc + 1) pc') (heq : f.height pc = f.slots pc) {ty : Ty}
    (htop : types[sp]? = some ty) (howns : f.frame.Owns (f.slots pc) ty) :
    Active types f frame pc' bp (sp + 1) where
  holds := hat.holds
  argc := h.argc
  argc_le := h.argc_le
  height := by
    have h₁ := h.height
    rw [hat.height]
    push_cast
    omega
  slots_le := by
    rw [hat.height, hat.slots]
    omega
  typed := by
    intro k hk hk'
    rw [hat.slots] at hk'
    rcases Nat.lt_succ_iff_lt_or_eq.mp hk' with hlt | rfl
    · exact h.typed k hk hlt
    · have hsp : bp + f.slots pc = sp := by
        have h₁ := h.height
        omega
      exact ⟨ty, by rw [hsp, htop], howns⟩

/-- Values are taken off the stack that belong to no variable. -/
theorem drop (h : Active types f frame pc bp sp) {n : Nat}
    (hat : f.At (f.height pc - n) (f.slots pc) pc') (hn : (f.slots pc : Int) + n ≤ f.height pc) :
    Active types f frame pc' bp (sp - n) where
  holds := hat.holds
  argc := h.argc
  argc_le := h.argc_le
  height := by
    have h₁ := h.height
    rw [hat.height]
    omega
  slots_le := by
    rw [hat.height, hat.slots]
    omega
  typed := by rw [hat.slots]; exact h.typed

end Active

theorem Coherent.congr {types types' : Array Ty} {frames : List CallFrame} {bp sp : Nat}
    (h : S.Coherent types frames pc bp sp) (ht : ∀ i < sp, types'[i]? = types[i]?) :
    S.Coherent types' frames pc bp sp := by
  induction frames generalizing pc bp sp with
  | nil => exact h
  | cons frame rest ih =>
    obtain ⟨f, hf, ha, hrest⟩ := h
    refine ⟨f, hf, ha.congr ht, ih hrest fun i hi => ht i ?_⟩
    have hlt := ha.bp_lt
    omega

/-- A function starts: its caller will go on behind the call, and the link slot is on top. -/
theorem active_entry (hv : S.Valid) {types : Array Ty} {g : Routine} (hg : g ∈ S.routines)
    {frame : CallFrame} (hargc : frame.argc = g.argc) {sp : Nat} (hsp : g.argc ≤ sp) :
    Active types g frame g.entry sp (sp + 1) := by
  have hh : g.height g.entry = 1 := by simp [Routine.height]
  have hs : g.slots g.entry = 1 := by simp [Routine.slots]
  refine ⟨⟨le_rfl, ?_⟩, hargc, hsp, by rw [hh]; norm_cast, by rw [hh, hs]; norm_cast, ?_⟩
  · have hpos := hv.nonempty g hg
    omega
  · intro k hk hk'
    rw [hs] at hk'
    omega

/-- A state that the code of a linked program can have reached. -/
structure Steady (S : Setting) (s : State) : Prop where
  chain : S.Coherent s.stackTypes s.frames s.pc s.bp s.sp
  globals : s.globalTypes = S.globals.values.map Value.ty

/-- How an executed instruction moves between the calls in progress. -/
inductive Shift (S : Setting) (j : Instr) (s s' : State) : Prop
  /-- It stays in its call, where it may reserve a slot. -/
  | stay {f : Routine} : s.frames ≠ [] → f ∈ S.routines → f.Holds s.pc → f.Holds s'.pc →
    f.slots s'.pc = f.slots s.pc + j.reserves.toNat → s'.frames = s.frames → Shift S j s s'
  | call {f g : Routine} : s.frames ≠ [] → f ∈ S.routines → f.Holds s.pc → f.Holds (s.pc + 1) →
    f.slots (s.pc + 1) = f.slots s.pc → j.reserves = false → g ∈ S.routines → s'.pc = g.entry →
    s'.frames = ⟨s.pc + 1, s.bp, g.argc⟩ :: s.frames → Shift S j s s'
  | ret {frame : CallFrame} {rest : List CallFrame} : s.frames = frame :: rest →
    s'.frames = rest → s'.pc = frame.returnPc → Shift S j s s'
  | boot {g : Routine} {frame : CallFrame} : s.frames = [] → s'.frames = [frame] →
    g ∈ S.routines → g.argc = 0 → s'.pc = g.entry → Shift S j s s'
  | rest : s.frames = [] → s'.frames = [] → Shift S j s s'

section Step

variable {S : Setting} {σ : Type} {hosts : Table (HostFunction σ)} {j : Instr} {s s' : State}
  {w w' : σ}

/-- The types below the top are the same after a push. -/
theorem getElem?_stackTypes_push (s : State) (v : Value) {i : Nat} (hi : i < s.sp) :
    (s.push v).stackTypes[i]? = s.stackTypes[i]? := by
  have hlt : i < (s.stack.map Value.ty).size := by
    rw [Array.size_map]
    exact hi
  rw [State.stackTypes, State.push, Array.map_push, Array.getElem?_push_lt hlt,
    ← Array.getElem?_eq_getElem hlt]
  rfl

/-- The types that are left are the same after values are taken off. -/
theorem getElem?_stackTypes_shrink (s : State) {i n : Nat} (hi : i < n) :
    ((s.stack.shrink n).map Value.ty)[i]? = s.stackTypes[i]? := by
  rw [State.stackTypes, Array.getElem?_map, Array.getElem?_map, Array.shrink_eq_take,
    Array.take_eq_extract, Array.getElem?_extract]
  by_cases h : i < s.stack.size
  · rw [if_pos (by omega), Nat.zero_add]
  · rw [if_neg (by omega), Array.getElem?_eq_none (by omega)]

theorem getElem?_stackTypes_pop (s : State) {i : Nat} (hi : i < s.sp - 1) :
    (s.stack.pop.map Value.ty)[i]? = s.stackTypes[i]? := by
  rw [State.stackTypes, Array.getElem?_map, Array.getElem?_map, Array.getElem?_pop]
  exact congrArg _ (if_pos hi)

theorem integer_imm (j : Instr) (s : State) (n : Int64) :
    Machine.integer j s (.imm (.int n)) = .ok n := rfl

theorem jumpTarget_natCast (n : Nat) : Machine.jumpTarget n = .ok n := by
  simp [Machine.jumpTarget]

theorem argumentCount_of_toInt {n : Int64} {argc : Nat} (h : n.toInt = argc) :
    Machine.argumentCount j n = .ok argc := by
  simp [Machine.argumentCount, h]

/-- A step that goes on in the same call and leaves the callers alone. -/
theorem step_within {f : Routine} {frame : CallFrame} {rest : List CallFrame} (hf : f ∈ S.routines)
    (hframes : s.frames = frame :: rest) (ha : Active s.stackTypes f frame s.pc s.bp s.sp)
    (hrest : S.Coherent s.stackTypes rest frame.returnPc frame.bp (s.bp - f.argc))
    (hframes' : s'.frames = s.frames) (hbp : s'.bp = s.bp)
    (hglobals : s'.globalTypes = S.globals.values.map Value.ty)
    (htypes : ∀ i < s.bp, s'.stackTypes[i]? = s.stackTypes[i]?)
    (ha' : Active s'.stackTypes f frame s'.pc s.bp s'.sp)
    (hslots : f.slots s'.pc = f.slots s.pc + j.reserves.toNat) : S.Steady s' ∧ S.Shift j s s' := by
  refine ⟨⟨?_, hglobals⟩, .stay (by simp [hframes]) hf ha.holds ha'.holds hslots
    hframes'⟩
  rw [hframes', hframes, hbp]
  exact ⟨f, hf, ha', hrest.congr fun i hi => htypes i (by omega)⟩

/-- A step that writes operands and goes on in the same call. -/
theorem step_of_alike {s₁ : State} {f : Routine} {frame : CallFrame} {rest : List CallFrame}
    {pc' steps : Nat} (hf : f ∈ S.routines) (hframes : s.frames = frame :: rest)
    (ha : Active s.stackTypes f frame s.pc s.bp s.sp)
    (hrest : S.Coherent s.stackTypes rest frame.returnPc frame.bp (s.bp - f.argc))
    (hglobals : s.globalTypes = S.globals.values.map Value.ty) (halike : s.Alike s₁)
    (hres : j.reserves = false) (hat : f.At (f.height s.pc) (f.slots s.pc) pc') :
    S.Steady { s₁ with pc := pc', steps := steps } ∧
      S.Shift j s { s₁ with pc := pc', steps := steps } := by
  have hsp : s₁.sp = s.sp := by
    rw [← State.size_stackTypes, halike.stackTypes, State.size_stackTypes]
  have ha' : Active s₁.stackTypes f frame pc' s.bp s₁.sp := by
    rw [halike.stackTypes, hsp]
    exact ha.move hat
  refine step_within hf hframes ha hrest halike.frames halike.bp
    (halike.globalTypes.trans hglobals) (fun i _ => congrArg (·[i]?) halike.stackTypes) ha' ?_
  rw [hat.slots, hres]
  rfl

theorem size_shrink_of_le {xs : Array Value} {n : Nat} (h : n ≤ xs.size) :
    (xs.shrink n).size = n := by
  rw [Array.size_shrink]
  omega

/-- A function is entered from coherent callers. -/
theorem steady_enter (hv : S.Valid) {g : Routine} (hg : g ∈ S.routines) (hargs : g.argc ≤ s.sp)
    (hcallers : S.Coherent s.stackTypes s.frames (s.pc + 1) s.bp (s.sp - g.argc))
    (hglobals : s.globalTypes = S.globals.values.map Value.ty) :
    S.Steady (Machine.advance s.pc (.jump g.entry) (Machine.enter s.pc g.argc s)) := by
  have hsp : (Machine.enter s.pc g.argc s).sp = s.sp + 1 := Array.size_push _
  have hentry : Active (Machine.enter s.pc g.argc s).stackTypes g ⟨s.pc + 1, s.bp, g.argc⟩ g.entry
      s.sp (Machine.enter s.pc g.argc s).sp := by
    rw [hsp]
    exact active_entry hv hg rfl hargs
  refine ⟨⟨g, hg, hentry, hcallers.congr fun i hi => ?_⟩, hglobals⟩
  have hlt : i < s.sp := by omega
  exact getElem?_stackTypes_push s _ hlt

/-- **A step inside a function keeps the state coherent.** -/
theorem step_of_performs (hv : S.Valid) {op : Operation} {f : Routine} {frame : CallFrame}
    {rest : List CallFrame} (hf : f ∈ S.routines) (hframes : s.frames = frame :: rest)
    (ha : Active s.stackTypes f frame s.pc s.bp s.sp)
    (hrest : S.Coherent s.stackTypes rest frame.returnPc frame.bp (s.bp - f.argc))
    (hglobals : s.globalTypes = S.globals.values.map Value.ty) (hp : S.Performs f s.pc j op)
    (ht : Machine.transition hosts j op s w = .ok (s', w')) : S.Steady s' ∧ S.Shift j s s' := by
  have hbp : s.bp < s.sp := ha.bp_lt
  have he := Machine.effect_of_transition ht
  -- in each case the types of the slots below stay, and the height moves as the counts say
  cases hp with
  | compute _ _ hres hat =>
    cases he with
    | compute _ _ _ hw =>
      exact step_of_alike hf hframes ha hrest hglobals (State.alike_of_write hw) hres hat
  | change _ hres hat =>
    cases he with
    | change _ _ hw =>
      exact step_of_alike hf hframes ha hrest hglobals (State.alike_of_write hw) hres hat
  | move _ _ hres hat =>
    cases he with
    | move _ hw =>
      exact step_of_alike hf hframes ha hrest hglobals (State.alike_of_write hw) hres hat
  | load hres hat =>
    cases he
    exact step_of_alike hf hframes ha hrest hglobals (State.alike_setRegister s _ _) hres hat
  | push _ hres hat =>
    cases he with
    | @push _ v _ =>
      have htypes (i : Nat) (hi : i < s.sp) := getElem?_stackTypes_push s v hi
      have ha' : Active (s.push v).stackTypes f frame (s.pc + 1) s.bp (s.push v).sp := by
        have hsp : (s.push v).sp = s.sp + 1 := Array.size_push _
        rw [hsp]
        exact (ha.congr htypes).push hat
      exact step_within hf hframes ha hrest rfl rfl hglobals (fun i hi => htypes i (by omega)) ha'
        (hat.slots.trans (by rw [hres]; rfl))
  | @reserve v heq howns hres hat =>
    cases ht
    have htypes (i : Nat) (hi : i < s.sp) := getElem?_stackTypes_push s v hi
    have ha' : Active (s.push v).stackTypes f frame (s.pc + 1) s.bp (s.push v).sp := by
      have hsp : (s.push v).sp = s.sp + 1 := Array.size_push _
      have htop : (s.push v).stackTypes[s.sp]? = some v.ty := by
        rw [State.stackTypes, State.push, Array.getElem?_map, State.sp, Array.getElem?_push_size]
        rfl
      rw [hsp]
      exact (ha.congr htypes).reserve hat heq htop howns
    exact step_within hf hframes ha hrest rfl rfl hglobals (fun i hi => htypes i (by omega)) ha'
      (hat.slots.trans (by rw [hres]; rfl))
  | @pop x hlt hres hat =>
    cases he with
    | pop _ hw =>
      cases hw
      have htypes (i : Nat) (hi : i < s.sp - 1) : (Machine.dropOne s).stackTypes[i]? =
          s.stackTypes[i]? := getElem?_stackTypes_pop s hi
      have ha' : Active (Machine.dropOne s).stackTypes f frame (s.pc + 1) s.bp
          (Machine.dropOne s).sp := by
        have hsp : (Machine.dropOne s).sp = s.sp - 1 := Array.size_pop
        rw [hsp]
        exact (@Active.drop _ _ _ _ _ _ _ ha 1 hat (by push_cast; omega)).congr htypes
      exact step_within hf hframes ha hrest rfl rfl hglobals (fun i hi => htypes i (by omega)) ha'
        (hat.slots.trans (by rw [hres]; rfl))
  | @jump t condition target htarget hcond hres hat hnext =>
    cases he with
    | jump _ hn hto =>
      cases hn
      rw [if_pos rfl, htarget, jumpTarget_natCast] at hto
      cases hto
      exact step_of_alike hf hframes ha hrest hglobals (.refl s) hres hat
    | pass _ => exact step_of_alike hf hframes ha hrest hglobals (.refl s) hres hnext
  | @host name n argc hn hle hres hat =>
    cases he with
    | host hcount hargc hargs _ =>
      cases hcount
      cases hargc.symm.trans (argumentCount_of_toInt hn)
      have htypes (i : Nat) (hi : i < s.sp - argc) : (Machine.dropTop argc s).stackTypes[i]? =
          s.stackTypes[i]? := getElem?_stackTypes_shrink s hi
      have ha' : Active (Machine.dropTop argc s).stackTypes f frame (s.pc + 1) s.bp
          (Machine.dropTop argc s).sp := by
        have hsp : (Machine.dropTop argc s).sp = s.sp - argc := size_shrink_of_le (Nat.sub_le _ _)
        rw [hsp]
        exact (ha.drop hat hle).congr htypes
      -- what the call takes off the stack lies above the link slot
      have hlow : s.bp < s.sp - argc := by
        have h₁ := ha.height
        have h₂ := slots_pos f s.pc
        omega
      exact step_within hf hframes ha hrest rfl rfl hglobals (fun i hi => htypes i (by omega)) ha'
        (hat.slots.trans (by rw [hres]; rfl))
    | call hnot => exact absurd rfl (hnot name)
  | @call t n g hg hentry hn hle hres hat =>
    cases he with
    | call _ hcount hargc hargs hto hpc =>
      cases hcount
      cases hto
      cases hargc.symm.trans (argumentCount_of_toInt hn)
      rw [hentry, jumpTarget_natCast] at hpc
      cases hpc
      -- the caller waits as the return will find it: without the arguments
      have hcallers : S.Coherent s.stackTypes s.frames (s.pc + 1) s.bp (s.sp - g.argc) := by
        rw [hframes]
        exact ⟨f, hf, ha.drop hat hle, hrest⟩
      exact ⟨steady_enter hv hg hargs hcallers hglobals,
        .call (by simp [hframes]) hf ha.holds hat.holds hat.slots hres hg rfl rfl⟩
  | ret hres =>
    cases he with
    | ret hframes' hlow =>
      cases hframes.symm.trans hframes'
      rw [ha.argc] at hlow
      have hle : s.bp - f.argc ≤ s.stack.size := by
        have hbp' : s.bp < s.stack.size := hbp
        omega
      have hsp : (Machine.leave frame rest s).sp = s.bp - f.argc := by
        rw [← ha.argc]
        exact size_shrink_of_le (ha.argc ▸ hle)
      -- what the callers rely on lies below the arguments
      have hcallers : S.Coherent (Machine.leave frame rest s).stackTypes rest frame.returnPc frame.bp
          (Machine.leave frame rest s).sp := by
        rw [hsp]
        exact hrest.congr fun i hi => getElem?_stackTypes_shrink s (ha.argc ▸ hi)
      exact ⟨⟨hcallers, hglobals⟩, .ret hframes rfl rfl⟩

/-- A step outside of all functions enters the first one or goes to the end. -/
theorem step_of_atRest (hv : S.Valid) {op : Operation} (hframes : s.frames = [])
    (hrest : S.AtRest s.pc) (hbp : s.bp = 0) (hsp : s.sp = 0)
    (hglobals : s.globalTypes = S.globals.values.map Value.ty)
    (hj : S.program.code[s.pc]? = some j) (hd : j.decode = .ok op)
    (ht : Machine.transition hosts j op s w = .ok (s', w')) : S.Steady s' ∧ S.Shift j s s' := by
  have he := Machine.effect_of_transition ht
  -- the machine stands at the end, at the jump to it, or at the first call
  rcases hrest with hend | ⟨j', t, hj', hd', hto⟩ | ⟨j', t, n, g, hj', hd', hg, hto, hn, hargc, hends⟩
  · rw [hend, Array.getElem?_size] at hj
    cases hj
  · cases hj.symm.trans hj'
    cases hd.symm.trans hd'
    cases he with
    | jump _ hn hpc =>
      cases hn
      rw [if_neg Bool.false_ne_true, hto, jumpTarget_natCast] at hpc
      cases hpc
      refine ⟨⟨?_, hglobals⟩, .rest hframes hframes⟩
      show S.Coherent _ s.frames _ s.bp s.sp
      rw [hframes]
      exact ⟨.inl rfl, hbp, hsp⟩
    | pass htaken => cases htaken
  · cases hj.symm.trans hj'
    cases hd.symm.trans hd'
    cases he with
    | call _ hcount hargc' _ htarget hpc =>
      cases hcount
      cases htarget
      cases hargc'.symm.trans (@argumentCount_of_toInt _ n 0 (by rw [hn]; rfl))
      rw [hto, jumpTarget_natCast] at hpc
      cases hpc
      -- the first call returns to the jump to the end, with nothing on the stack
      have hcallers : S.Coherent s.stackTypes s.frames (s.pc + 1) s.bp (s.sp - g.argc) := by
        rw [hframes]
        exact ⟨.inr (.inl hends), hbp, by omega⟩
      have hsteady := steady_enter hv hg (by omega) hcallers hglobals
      rw [hargc] at hsteady
      exact ⟨hsteady, .boot hframes (by rw [← hframes]; rfl) hg hargc rfl⟩

/-- **A step keeps a state coherent.** -/
theorem Steady.step (hv : S.Valid) (hs : S.Steady s) {op : Operation}
    (hj : S.program.code[s.pc]? = some j) (hd : j.decode = .ok op)
    (ht : Machine.transition hosts j op s w = .ok (s', w')) : S.Steady s' ∧ S.Shift j s s' := by
  obtain ⟨hchain, hglobals⟩ := hs
  cases hframes : s.frames with
  | nil =>
    rw [hframes] at hchain
    obtain ⟨hrest, hbp, hsp⟩ := hchain
    exact step_of_atRest hv hframes hrest hbp hsp hglobals hj hd ht
  | cons frame rest =>
    rw [hframes] at hchain
    obtain ⟨f, hf, ha, hrest⟩ := hchain
    obtain ⟨j', op', hj', hd', hp⟩ := performs_of_holds hv hf ha.holds
    cases hj.symm.trans hj'
    cases hd.symm.trans hd'
    exact step_of_performs hv hf hframes ha hrest hglobals hp ht

end Step

end Stepwise.Setting

namespace Stepwise.Compiler.Compilation

variable {hosts : List HostDecl} {program : Program} {image : Image}
  (c : Compilation hosts program image)

/-- The routines of a compiled program keep the discipline. -/
theorem valid (hsize : image.code.size < 2 ^ 63) : c.setting.Valid where
  short := hsize
  inside f hf := (c.placed hf).2
  nonempty f hf := by
    obtain ⟨d, -, hd⟩ := c.exists_definition hf
    rw [hd]
    simp [Definition.routine, Definition.draft, Lowering.functionCode]
  runs f hf pc hpc := c.runs hsize hf hpc
  unique f hf g hg pc hpc hpc' := c.holds_unique hf hg hpc hpc'

/-- `main` has no parameters. -/
theorem params_main {sig : Signature}
    (h : c.progress.scope.inner.get? "main" = some (.function sig)) (hext : sig.external = false) :
    sig.params = [] := by
  rcases (c.signed.get?_iff _ _).mp (c.widens.functions h) with
    ⟨d, -, hd⟩ | ⟨f, -, hname, params, hp, hsym⟩
  · simp only [hostSymbol, Prod.mk.injEq, Symbol.function.injEq] at hd
    rw [← hd.2] at hext
    cases hext
  · cases hsym
    unfold Lowering.parameterTypes at hp
    rw [← hname] at hp
    cases hps : f.parameters with
    | nil =>
      rw [hps] at hp
      cases hp
      rfl
    | cons decl rest => simp [hps, at_ne_ok] at hp

/-- A jump to the end stands where the first instructions have it. -/
theorem ends_of_placed (hsize : image.code.size < 2 ^ 63) {pc : Nat}
    (h : Placed c.setting.program .empty pc (Code.ofInstrs [.jmp (.label haltLabel)])) :
    c.setting.Ends pc := by
  obtain ⟨j, hj, hop, hd, hs, -⟩ := exists_of_placed h.1
  have hlabel : c.setting.program.labels.get? haltLabel = some image.code.size := c.label_halt
  obtain ⟨op, dest, src, comment, origin⟩ := j
  simp only [Instr.jmp, Instr.unary, Option.map_some, Option.map_none, Operand.settle, hlabel]
    at hop hd hs
  subst hop hd hs
  refine ⟨_, _, hj, rfl, ?_⟩
  rw [toInt_labelTarget (by decide) hsize le_rfl]
  rfl

/-- A program starts outside of all functions. -/
theorem atRest_zero (hsize : image.code.size < 2 ^ 63) : c.setting.AtRest 0 := by
  have hplaced := c.placed_stub
  unfold stub at hplaced
  split at hplaced
  next hmain =>
    obtain ⟨hcall, hjump⟩ := hplaced
    unfold hasMain at hmain
    split at hmain
    next sig hsig =>
      have hext : sig.external = false := by simpa using hmain
      obtain ⟨-, g, hg, hlabel, hargc, -⟩ := c.calls hsig hext
      rw [c.params_main hsig hext] at hargc
      obtain ⟨j, hj, hop, hd, hs, -⟩ := exists_of_placed hcall
      obtain ⟨op, dest, src, comment, origin⟩ := j
      simp only [Instr.call, Instr.binary, Instr.withComment, Option.map_some, Operand.settle,
        hlabel] at hop hd hs
      subst hop hd hs
      have hentry : g.entry < image.code.size := by
        have h₁ := (c.valid hsize).inside g hg
        have h₂ := (c.valid hsize).nonempty g hg
        exact lt_of_lt_of_le (by omega) h₁
      exact .inr (.inr ⟨_, _, _, g, hj, rfl, hg, toInt_labelTarget (by decide) hsize hentry.le,
        rfl, hargc, c.ends_of_placed hsize hjump⟩)
    · cases hmain
  next => exact .inr (.inl (c.ends_of_placed hsize hplaced))

/-- The first state of a compiled program is coherent. -/
theorem steady_initial (hsize : image.code.size < 2 ^ 63) :
    c.setting.Steady (.initial image.globals) := by
  refine ⟨⟨c.atRest_zero hsize, rfl, rfl⟩, ?_⟩
  rw [State.globalTypes, State.initial, c.globals]
  rfl

end Stepwise.Compiler.Compilation
