import Mathlib
import Stepwise.Proofs.CallChain
import Stepwise.Proofs.Descent

/-!
# Termination

A program without loops and recursion ends, whatever the host does. Each address gets a weight that
is larger than what can follow it: the weight of every address that execution may go on at, and for
a call the weight of the function and of the return address together. The weights of the program
counter and of the return addresses of all calls in progress then sum up to a bound on the steps
that are left.

The weights come from the calls and the addresses: a function that calls another one weighs more by
a factor that exceeds the length of the program, and within a function the weight falls with the
address, because every jump goes forward.

## Main definitions

* `Machine.Falls`, `Machine.Weighs`: weights that fall along every way through the code
* `Machine.potential`: the bound on the steps that are left
* `Program.Calls`, `Program.depth`: the calls between functions, and how deep they can go

## Main results

* `Machine.potential_of_transition`, `Machine.Steps.le_potential`: a step lowers the potential, so
  that it bounds the length of a run
* `Compiler.Compilation.weighs`: the weights of a program without loops and recursion fall
* `loop_free_programs_terminate`: such a program halts or fails within a number of steps that
  depends on its code alone
-/

namespace Stepwise

namespace Machine

/-! ## Weights -/

/-- The weight of an address is larger than the weights of what an operation there leads to. -/
def Falls (weight : Nat → Nat) (a : Nat) : Operation → Prop
  | .ret => 0 < weight a
  | .jump relative target _ => weight (a + 1) < weight a ∧ ∃ (n : Int64) (t : Nat),
    target = .imm (.int n) ∧ (if relative then (a : Int) + n.toInt else n.toInt) = t ∧
      weight t < weight a
  | .call (.host _) _ => weight (a + 1) < weight a
  | .call target _ => ∃ (n : Int64) (t : Nat), target = .imm (.int n) ∧ n.toInt = t ∧
    weight t + weight (a + 1) < weight a
  | _ => weight (a + 1) < weight a

/-- The weights fall along every way through the code. -/
def Weighs (code : Array Instr) (weight : Nat → Nat) : Prop :=
  ∀ {a : Nat} {i : Instr} {op : Operation}, code[a]? = some i → i.decode = .ok op →
    Falls weight a op

/-- The weights of the addresses at which execution is and will go on. -/
def potential (weight : Nat → Nat) (s : State) : Nat :=
  weight s.pc + (s.frames.map fun frame => weight frame.returnPc).sum

section Potential

variable {σ : Type} {weight : Nat → Nat} {hosts : Table (HostFunction σ)} {i : Instr}
  {op : Operation} {s s' s₁ : State} {w w' : σ}

/-- A step that stays in its call. -/
theorem potential_advance {flow : Flow} (hframes : s₁.frames = s.frames)
    (h : weight (advance s.pc flow s₁).pc < weight s.pc) :
    potential weight (advance s.pc flow s₁) < potential weight s := by
  have hsame : (advance s.pc flow s₁).frames = s.frames := hframes
  rw [potential, potential, hsame]
  omega

/-- **A step lowers the potential** if the weights fall. -/
theorem potential_of_transition (hfalls : Falls weight s.pc op)
    (h : transition hosts i op s w = .ok (s', w')) :
    potential weight s' < potential weight s := by
  cases effect_of_transition h with
  | compute _ _ _ hw | change _ _ hw | move _ hw | pop _ hw =>
    exact potential_advance (State.alike_of_write hw).frames hfalls
  | load | push | host | nop => exact potential_advance rfl hfalls
  | jump _ hn ht =>
    obtain ⟨-, n, t, rfl, hto, hlt⟩ := hfalls
    rw [Setting.integer_imm] at hn
    cases hn
    rw [hto, Setting.jumpTarget_natCast] at ht
    cases ht
    exact potential_advance rfl hlt
  | pass => exact potential_advance rfl hfalls.1
  | @call target _ _ _ _ pc hhost _ _ _ hn ht =>
    have hfalls' : ∃ (n : Int64) (t : Nat), target = .imm (.int n) ∧ n.toInt = t ∧
        weight t + weight (s.pc + 1) < weight s.pc := by
      cases target with
      | host name => exact absurd rfl (hhost name)
      | _ => exact hfalls
    obtain ⟨n, t, rfl, hto, hlt⟩ := hfalls'
    rw [Setting.integer_imm] at hn
    cases hn
    rw [hto, Setting.jumpTarget_natCast] at ht
    cases ht
    -- the call pays for the callee and for what it returns to
    show weight pc + (weight (s.pc + 1) + (s.frames.map fun frame => weight frame.returnPc).sum) <
      potential weight s
    rw [potential]
    omega
  | @ret frame rest hframes =>
    have hpos : 0 < weight s.pc := hfalls
    show weight frame.returnPc + (rest.map fun frame => weight frame.returnPc).sum <
      weight s.pc + _
    rw [hframes, List.map_cons, List.sum_cons]
    omega

/-- **The potential bounds the length of a run.** -/
theorem Steps.le_potential {n : Nat} {m m' : Machine σ} (hweight : Weighs m.image.code weight)
    (h : Steps n m m') : n ≤ potential weight m.state := by
  induction h with
  | refl => exact Nat.zero_le _
  | step he _ ih =>
    obtain ⟨i, op, s, w, hi, hd, ht, rfl⟩ := executeNext_eq_ok_iff.mp he
    have hlt := potential_of_transition (hweight hi hd) ht
    have hle : _ ≤ potential weight s := ih hweight
    omega

/-- A machine whose runs are bounded stops: after some run its next step fails. -/
theorem exists_stop {m : Machine σ} {bound : Nat} (h : ∀ n m', Steps n m m' → n ≤ bound) :
    ∃ n m' e, Steps n m m' ∧ executeNext m' = .error e m' := by
  by_contra hnot
  push Not at hnot
  -- otherwise every run can be extended
  have hall (n : Nat) : ∃ m', Steps n m m' := by
    induction n with
    | zero => exact ⟨m, .refl m⟩
    | succ n ih =>
      obtain ⟨m', hm'⟩ := ih
      cases hnext : executeNext m' with
      | ok u m'' => exact ⟨m'', hm'.trans (.one hnext)⟩
      | error e m'' =>
        obtain ⟨rfl, -⟩ := executeNext_eq_error_iff.mp hnext
        exact absurd hnext (hnot n _ e hm')
  obtain ⟨m', hm'⟩ := hall (bound + 1)
  have hle := h _ _ hm'
  omega

end Potential

/-! ## Weights from levels -/

/-- The weight of an address in code of a given size: it falls with the address, and a higher level
outweighs a whole program of a lower one. -/
def levelWeight (size : Nat) (level : Nat → Nat) (a : Nat) : Nat :=
  (size + 1 - a) * (size + 2) ^ level a

section Level

variable {size a t : Nat} {level : Nat → Nat}

theorem levelWeight_pos (ha : a ≤ size) : 0 < levelWeight size level a :=
  Nat.mul_pos (by omega) (Nat.pow_pos (by omega))

/-- Forward on the same level or down. -/
theorem levelWeight_lt (ht : a < t) (hsize : t ≤ size) (hlevel : level t ≤ level a) :
    levelWeight size level t < levelWeight size level a :=
  calc (size + 1 - t) * (size + 2) ^ level t
      ≤ (size + 1 - t) * (size + 2) ^ level a :=
        Nat.mul_le_mul_left _ (Nat.pow_le_pow_right (by omega) hlevel)
    _ < (size + 1 - a) * (size + 2) ^ level a :=
        Nat.mul_lt_mul_of_pos_right (by omega) (Nat.pow_pos (by omega))

/-- A call of something on a lower level, and what follows it. -/
theorem levelWeight_call (ha : a < size) (hnext : level (a + 1) ≤ level a)
    (ht : level t < level a) :
    levelWeight size level t + levelWeight size level (a + 1) < levelWeight size level a := by
  obtain ⟨k, hk⟩ : ∃ k, level a = k + 1 := ⟨level a - 1, by omega⟩
  have hpow : 0 < (size + 2) ^ k := Nat.pow_pos (by omega)
  have hcallee : levelWeight size level t < (size + 2) ^ level a :=
    calc (size + 1 - t) * (size + 2) ^ level t
        ≤ (size + 1) * (size + 2) ^ k :=
          Nat.mul_le_mul (by omega) (Nat.pow_le_pow_right (by omega) (by omega))
      _ < (size + 2) * (size + 2) ^ k := Nat.mul_lt_mul_of_pos_right (by omega) hpow
      _ = (size + 2) ^ level a := by rw [hk, Nat.pow_succ, Nat.mul_comm]
  have hrest : levelWeight size level (a + 1) ≤ (size - a) * (size + 2) ^ level a := by
    rw [levelWeight, Nat.add_sub_add_right]
    exact Nat.mul_le_mul_left _ (Nat.pow_le_pow_right (by omega) hnext)
  calc levelWeight size level t + levelWeight size level (a + 1)
      < (size + 2) ^ level a + (size - a) * (size + 2) ^ level a :=
        Nat.add_lt_add_of_lt_of_le hcallee hrest
    _ = (size + 1 - a) * (size + 2) ^ level a := by
        rw [Nat.add_comm, ← Nat.succ_mul]
        congr 1
        omega

end Level

end Machine

/-! ## Calls between functions -/

open Compiler

namespace Program

/-- No loop occurs in the program. -/
def isLoopFree (program : Program) : Bool := Stmt.allLoopFree program.statements

/-- A function of the program has a call of a function of the program. -/
def Calls (program : Program) (f g : String) : Prop :=
  (∃ d ∈ functionsOf program, d.name = f ∧ g ∈ d.calls) ∧ ∃ d ∈ functionsOf program, d.name = g

/-- No function calls itself, directly or through others. -/
def RecursionFree (program : Program) : Prop := ∀ f, ¬ Relation.TransGen program.Calls f f

/-- How many functions are called by a function, directly or through others. -/
noncomputable def depth (program : Program) (f : String) : Nat :=
  {g | Relation.TransGen program.Calls f g}.ncard

/-- The names of the functions. -/
def names (program : Program) : Finset String :=
  ((functionsOf program).map Function.name).toFinset

theorem transGen_subset_names (program : Program) (f : String) :
    {g | Relation.TransGen program.Calls f g} ⊆ (program.names : Set String) := by
  intro g hg
  obtain ⟨-, -, -, d, hd, rfl⟩ := (Relation.TransGen.tail'_iff).mp hg
  simpa [names] using ⟨d, hd, rfl⟩

theorem depth_le (program : Program) (f : String) :
    program.depth f ≤ (functionsOf program).length := by
  calc program.depth f
      ≤ (program.names : Set String).ncard :=
        Set.ncard_le_ncard (program.transGen_subset_names f) (Finset.finite_toSet _)
    _ = program.names.card := Set.ncard_coe_finset _
    _ ≤ ((functionsOf program).map Function.name).length := List.toFinset_card_le _
    _ = (functionsOf program).length := List.length_map _

/-- Without recursion, a call leads to a function that is less deep. -/
theorem depth_lt {program : Program} (hfree : program.RecursionFree) {f g : String}
    (h : program.Calls f g) : program.depth g < program.depth f := by
  refine Set.ncard_lt_ncard ⟨fun k hk => .head h hk, fun hsub => ?_⟩
    ((Finset.finite_toSet _).subset (program.transGen_subset_names f))
  exact hfree g (hsub (.single h))

/-- There is no recursion exactly if the functions can be numbered so that calls go down. -/
theorem recursionFree_iff {program : Program} :
    program.RecursionFree ↔ ∃ rank : String → Nat, ∀ f g, program.Calls f g → rank g < rank f := by
  constructor
  · exact fun hfree => ⟨program.depth, fun f g hcall => depth_lt hfree hcall⟩
  · rintro ⟨rank, hrank⟩ f hf
    have hlt {g : String} (h : Relation.TransGen program.Calls f g) : rank g < rank f := by
      induction h with
      | single hcall => exact hrank _ _ hcall
      | tail _ hcall ih => exact (hrank _ _ hcall).trans ih
    exact lt_irrefl _ (hlt hf)

end Program

theorem decode_eq_jump {j : Instr} {relative : Bool} {target : Operand} {condition : Option Operand}
    (h : j.decode = .ok (.jump relative target condition)) :
    j.op = (if relative then .rjmp else .jmp) ∧ j.dest = some target := by
  obtain ⟨op, dest, src, comment, origin⟩ := j
  unfold Instr.decode at h
  simp only at h
  split at h
  case h_16 | h_17 =>
    cases h
    exact ⟨rfl, rfl⟩
  all_goals cases h

theorem op_ne_ret_of_decode {j : Instr} {op : Operation} (h : j.decode = .ok op) (hop : op ≠ .ret) :
    j.op ≠ .ret := by
  obtain ⟨op', dest, src, comment, origin⟩ := j
  rintro rfl
  unfold Instr.decode at h
  simp only at h
  split at h
  case h_19 => exact hop (by cases h; rfl)
  all_goals simp_all

namespace Compiler.Compilation

variable {hosts : List HostDecl} {program : Program} {image : Image} {a : Nat} {i : Instr}
  {op : Operation}

/-! ## Compiled programs -/

/-- The code of every function of a program without loops descends. -/
theorem descends (c : Compilation hosts program image) (hfree : program.isLoopFree = true)
    {d : Definition} (hd : d ∈ c.definitions) : Code.Descends d.source.calls [] d.draft := by
  have hmem : d.source ∈ functionsOf program := by
    rw [← c.sources_eq]
    exact List.mem_map_of_mem hd
  obtain ⟨stmt, hstmt, hf⟩ := List.mem_filterMap.mp hmem
  have hstmt' := Stmt.allLoopFree_iff.mp hfree stmt hstmt
  refine (c.compiled hd).descends ?_
  cases stmt with
  | function name parameters body ret loc =>
    rw [← Option.some.inj hf]
    exact hstmt'
  | _ => cases hf

/-- An instruction of a function comes from one of its code. -/
theorem exists_instr_of_functionAt? (c : Compilation hosts program image) {name : String}
    {e : CodeEntry} (hi : image.code[a]? = some i)
    (hfun : image.symbols.functionAt? a = some (name, e)) :
    ∃ d ∈ c.definitions, ∃ j, d.source.name = name ∧ d.routine e.addr ∈ c.setting.routines ∧
      d.draft.instrs[a - e.addr]? = some j ∧ e.addr ≤ a ∧ i.op = j.op ∧ i.comment = j.comment ∧
      i.dest = j.dest.map (Operand.settle c.labels d.finish.frame j.op a) := by
  obtain ⟨d, hd, hname, -, hr, hlow, hhigh⟩ := c.routine_of_functionAt? hfun
  have hlow' : e.addr ≤ a := hlow
  have hhigh' : a < e.addr + d.draft.size := hhigh
  have hlt : a - e.addr < d.draft.instrs.length := by
    have hsize : d.draft.size = d.draft.instrs.length := rfl
    omega
  have hj := getElem?_of_placed (c.placed hr).1 (List.getElem?_eq_getElem hlt)
  have ha : (d.routine e.addr).entry + (a - e.addr) = a := Nat.add_sub_cancel' hlow
  rw [ha] at hj
  obtain ⟨i', hi', hop, hdest, -, hcomment⟩ := exists_of_placed hj
  cases hi.symm.trans hi'
  exact ⟨d, hd, _, hname, hr, List.getElem?_eq_getElem hlt, hlow', hop, hcomment, hdest⟩

/-- **Every relative jump goes forward** in a program without loops, within its function. -/
theorem jumps_forward (c : Compilation hosts program image) (haddr : image.Addressable)
    (hfree : program.isLoopFree = true) (hi : image.code[a]? = some i) (hop : i.op = .rjmp) :
    ∃ (n : Int64) (t : Nat), i.dest = some (.imm (.int n)) ∧ (a : Int) + n.toInt = t ∧ a < t ∧
      t < image.code.size ∧ image.symbols.functionAt? t = image.symbols.functionAt? a := by
  obtain ⟨n, name, e, hdest, hfun, hlow, hhigh⟩ := (c.mapped haddr).jumps a i hi hop
  obtain ⟨d, hd, j, -, hr, hj, ha, hop', -, hdest'⟩ := c.exists_instr_of_functionAt? hi hfun
  obtain ⟨n', hn', hpos⟩ := exists_distance_of_descends (p := c.setting.program) haddr
    (c.placed hr).2 (c.placed hr).1 (c.descends hfree hd) hj (hop'.symm.trans hop)
  have hpc : (d.routine e.addr).entry + (a - e.addr) = a := Nat.add_sub_cancel' ha
  rw [hpc] at hn'
  cases hdest.symm.trans (hdest'.trans hn')
  obtain ⟨t, ht⟩ := Int.eq_ofNat_of_zero_le (show 0 ≤ (a : Int) + n.toInt by omega)
  have hentry := ((Symbols.functionAt?_eq_some_iff c.tiles).mp hfun).1
  have hbound := (c.tiles.bounds (Table.get?_eq_some_iff.mp hentry)).2
  simp only at hbound
  refine ⟨n, t, hdest, ht, by omega, by omega, ?_⟩
  rw [hfun, Symbols.functionAt?_eq_some_iff c.tiles]
  refine ⟨hentry, ?_⟩
  simp only [CodeEntry.covers, Bool.and_eq_true, decide_eq_true_eq]
  omega

/-- A call of a compiled function is one that the calling function has. -/
theorem calls_of_call (c : Compilation hosts program image) (haddr : image.Addressable)
    (hfree : program.isLoopFree = true) (hi : image.code[a]? = some i) (hop : i.op = .call)
    (hhost : ∀ host, i.dest ≠ some (.host host)) {name : String} {e : CodeEntry}
    (hfun : image.symbols.functionAt? a = some (name, e)) :
    ∃ callee e', image.symbols.code.get? callee = some e' ∧ i.Enters e'.addr e'.argc ∧
      program.Calls name callee := by
  obtain ⟨callee, e', hcomment, he', henters⟩ := (c.mapped haddr).calls a i hi hop hhost
  obtain ⟨d, hd, j, hname, hr, hj, -, hop', hcomment', hdest'⟩ := c.exists_instr_of_functionAt? hi hfun
  refine ⟨callee, e', he', henters, ⟨d.source, ?_, hname, ?_⟩, ?_⟩
  · rw [← c.sources_eq]
    exact List.mem_map_of_mem hd
  · obtain ⟨pre, post, -, -, hdesc⟩ := (c.descends hfree hd).exists_split hj
    unfold Instr.Descends at hdesc
    rw [← hop', hop] at hdesc
    split at hdesc
    case h_4 host _ hdest =>
      rw [hdest] at hdest'
      exact absurd hdest' (hhost host)
    case h_5 =>
      obtain ⟨l, hl, hjl⟩ := hdesc
      obtain rfl : callee = l := Option.some.inj (hcomment.symm.trans (hcomment'.trans hjl))
      exact hl
    all_goals simp_all
  · have hkey : callee ∈ image.symbols.code.keys :=
      List.mem_map.mpr ⟨_, Table.get?_eq_some_iff.mp he', rfl⟩
    rw [c.keys_code] at hkey
    exact List.mem_map.mp hkey

/-- A function has no absolute jump. -/
theorem op_ne_jmp (c : Compilation hosts program image) (haddr : image.Addressable)
    (hi : image.code[a]? = some i) {f : String × CodeEntry}
    (hfun : image.symbols.functionAt? a = some f) : i.op ≠ .jmp := by
  intro hop
  rcases c.instr_cases haddr hi with hstub | ⟨r, hr, hpc, j, hadm, hop', -⟩
  · cases hfun.symm.trans ((c.mapped haddr).outside a (.inl hstub))
  · obtain ⟨op, dest, src, comment, origin⟩ := j
    obtain rfl : op = .jmp := hop'.symm.trans hop
    exact hadm.elim

/-- How deep calls can go from an address. Outside of functions it is more than in any of them. -/
noncomputable def level (program : Program) (image : Image) (a : Nat) : Nat :=
  match image.symbols.functionAt? a with
  | some (name, _) => program.depth name
  | none => (functionsOf program).length + 1

theorem level_le (program : Program) (image : Image) (a : Nat) :
    level program image a ≤ (functionsOf program).length + 1 := by
  unfold level
  split
  · exact (program.depth_le _).trans (Nat.le_succ _)
  · exact le_rfl

theorem level_congr {b : Nat} (h : image.symbols.functionAt? b = image.symbols.functionAt? a) :
    level program image b = level program image a := by
  rw [level, h, level]

theorem level_of_functionAt? {name : String} {e : CodeEntry}
    (h : image.symbols.functionAt? a = some (name, e)) :
    level program image a = program.depth name := by
  rw [level, h]

/-- The first address of a function is on the level of the function. -/
theorem level_entry (c : Compilation hosts program image) {name : String} {e : CodeEntry}
    (h : image.symbols.code.get? name = some e) :
    level program image e.addr = program.depth name := by
  refine level_of_functionAt? ((Symbols.functionAt?_eq_some_iff c.tiles).mpr ⟨h, ?_⟩)
  have hpos := c.tiles.size_pos (Table.get?_eq_some_iff.mp h)
  simpa [CodeEntry.covers] using hpos

/-- The weights of a program without loops and recursion. -/
noncomputable def weight (program : Program) (image : Image) : Nat → Nat :=
  Machine.levelWeight image.code.size (level program image)

/-- The weights of the first instructions fall. -/
theorem falls_stub (c : Compilation hosts program image) (haddr : image.Addressable)
    (hi : image.code[a]? = some i) (hd : i.decode = .ok op) (ha : a < image.stubSize) :
    Machine.Falls (weight program image) a op := by
  obtain ⟨hlt, -⟩ := Array.getElem?_eq_some_iff.mp hi
  have htop : level program image a = (functionsOf program).length + 1 := by
    rw [level, (c.mapped haddr).outside a (.inl ha)]
  have hlevel (b : Nat) : level program image b ≤ level program image a :=
    htop ▸ level_le program image b
  obtain ⟨j, hj, ⟨-, hop, hsrc, t, hdest, ht⟩ | ⟨-, -, e, he, hop, ⟨t, hdest, ht⟩, n, hsrc, -⟩⟩ :=
    c.stub_cases haddr ha
  all_goals
    cases hi.symm.trans hj
    obtain ⟨op', dest, src, comment, origin⟩ := i
    simp only at hop hdest hsrc
    subst hop hdest hsrc
    cases hd
  · refine ⟨Machine.levelWeight_lt (Nat.lt_succ_self a) hlt (hlevel _), t, image.code.size, rfl, ht,
      Machine.levelWeight_lt hlt le_rfl (hlevel _)⟩
  · refine ⟨t, e.addr, rfl, ht, Machine.levelWeight_call hlt (hlevel _) ?_⟩
    rw [c.level_entry he, htop]
    exact Nat.lt_succ_of_le (program.depth_le _)

/-- The weights within a function fall. -/
theorem falls_function (c : Compilation hosts program image) (haddr : image.Addressable)
    (hfree : program.isLoopFree = true) (hrec : program.RecursionFree)
    (hi : image.code[a]? = some i) (hd : i.decode = .ok op) {name : String} {e : CodeEntry}
    (hfun : image.symbols.functionAt? a = some (name, e)) :
    Machine.Falls (weight program image) a op := by
  obtain ⟨hlt, -⟩ := Array.getElem?_eq_some_iff.mp hi
  have hlevel (hne : op ≠ .ret) : level program image (a + 1) ≤ level program image a :=
    (level_congr ((c.functionAt?_succ hi (op_ne_ret_of_decode hd hne) hfun).trans hfun.symm)).le
  have hnext (hne : op ≠ .ret) : weight program image (a + 1) < weight program image a :=
    Machine.levelWeight_lt (Nat.lt_succ_self a) hlt (hlevel hne)
  cases op with
  | ret => exact Machine.levelWeight_pos hlt.le
  | jump relative target condition =>
    obtain ⟨hop, hdest⟩ := decode_eq_jump hd
    cases relative with
    | true =>
      obtain ⟨n, t, hdest', ht, hforward, hsize, hsame⟩ := c.jumps_forward haddr hfree hi hop
      exact ⟨hnext nofun, n, t, Option.some.inj (hdest.symm.trans hdest'), ht,
        Machine.levelWeight_lt hforward hsize.le (level_congr hsame).le⟩
    | false =>
      -- the only absolute jump is the one to the end of the program
      exact absurd hop (c.op_ne_jmp haddr hi hfun)
  | call target count =>
    obtain ⟨hop, hdest, -⟩ := decode_eq_call hd
    cases target with
    | host name => exact hnext nofun
    | _ =>
      obtain ⟨callee, e', he', henters, hcalls⟩ :=
        c.calls_of_call haddr hfree hi hop (by simp [hdest]) hfun
      obtain ⟨t, ht, htaddr⟩ := henters.dest
      refine ⟨t, e'.addr, Option.some.inj (hdest.symm.trans ht), htaddr,
        Machine.levelWeight_call hlt (hlevel nofun) ?_⟩
      rw [c.level_entry he', level_of_functionAt? hfun]
      exact Program.depth_lt hrec hcalls
  | _ => exact hnext nofun

/-- **The weights of a program without loops and recursion fall** along every way through its
code. -/
theorem weighs (c : Compilation hosts program image) (haddr : image.Addressable)
    (hfree : program.isLoopFree = true) (hrec : program.RecursionFree) :
    Machine.Weighs image.code (weight program image) := by
  intro a i op hi hd
  obtain ⟨hlt, -⟩ := Array.getElem?_eq_some_iff.mp hi
  by_cases ha : a < image.stubSize
  · exact c.falls_stub haddr hi hd ha
  · obtain ⟨name, e, hfun, -⟩ := (c.mapped haddr).covered a (by omega) hlt
    exact c.falls_function haddr hfree hrec hi hd hfun

end Compiler.Compilation

/-- **Programs without loops and recursion terminate.** If no loop occurs in a program, every
relative jump of its code goes forward. If moreover no function calls itself, directly or through
others, there is a number of steps, for all hosts and worlds, that no run exceeds: within it the
program has halted or failed. -/
theorem loop_free_programs_terminate {hosts : List HostDecl} {program : Program} {image : Image}
    (hcompile : compile hosts program = .ok image) (haddr : image.Addressable)
    (hfree : program.isLoopFree = true) :
    (∀ {a : Nat} {i : Instr}, image.code[a]? = some i → i.op = .rjmp →
      ∃ (n : Int64) (t : Nat), i.dest = some (.imm (.int n)) ∧ (a : Int) + n.toInt = t ∧ a < t ∧
        t < image.code.size) ∧
    (program.RecursionFree → ∃ bound : Nat, ∀ {σ : Type} {m₀ : Machine σ}, m₀.Starts image →
      (∀ n m, Machine.Steps n m₀ m → n ≤ bound) ∧
      ∃ n m e, n ≤ bound ∧ Machine.Steps n m₀ m ∧ m.executeNext = .error e m) := by
  obtain ⟨c, -⟩ := exists_compilation hcompile
  refine ⟨fun hi hop => ?_, fun hrec => ?_⟩
  · obtain ⟨n, t, hdest, ht, hforward, hsize, -⟩ := c.jumps_forward haddr hfree hi hop
    exact ⟨n, t, hdest, ht, hforward, hsize⟩
  · refine ⟨Compilation.weight program image 0, fun {σ m₀} hstart => ?_⟩
    have hbound (n : Nat) (m : Machine σ) (hrun : Machine.Steps n m₀ m) :
        n ≤ Compilation.weight program image 0 := by
      have hweighs : Machine.Weighs m₀.image.code (Compilation.weight program image) := by
        rw [hstart.1]
        exact c.weighs haddr hfree hrec
      have hle := hrun.le_potential hweighs
      rw [hstart.2] at hle
      exact hle
    obtain ⟨n, m, e, hrun, hstop⟩ := Machine.exists_stop hbound
    exact ⟨hbound, n, m, e, hbound n m hrun, hrun, hstop⟩

/-- A program whose functions call each other on both sides of an operator that may skip one. -/
def guarded : Program :=
  ⟨[Build.func "half" [Build.param .int "x"] .int
      [Build.branch (Build.binary .gt (Build.ident "x") (Build.lit (.int 1)))
        (Build.ret (some (Build.binary .div (Build.ident "x") (Build.lit (.int 2)))))
        (some (Build.ret (some (Build.lit (.int 0)))))],
    Build.func "main" [] .void
      [Build.branch (Build.binary .and (Build.call "half" [Build.lit (.int 9)])
          (Build.unary .not (Build.call "half" [Build.call "half" [Build.lit (.int 3)]])))
        (Build.expr (Build.call "print" [Build.lit (.int 1)])) none]]⟩

/-- The jump over the right side of the operator goes forward, and the program ends, whatever the
host does when it prints. -/
theorem loop_free_programs_terminate_guarded :
    guarded.isLoopFree = true ∧ guarded.RecursionFree ∧
      (∃ (i : Instr) (n : Int64) (t : Nat), (imageOf builtins guarded).code[31]? = some i ∧
        i.op = .rjmp ∧ i.dest = some (.imm (.int n)) ∧ 31 + n.toInt = t ∧ 31 < t) ∧
      ∃ bound : Nat, ∀ {σ : Type} {m₀ : Machine σ}, m₀.Starts (imageOf builtins guarded) →
        ∃ n m e, n ≤ bound ∧ Machine.Steps n m₀ m ∧ m.executeNext = .error e m := by
  have hcompile : compile builtins guarded = .ok (imageOf builtins guarded) :=
    compile_eq_ok_imageOf (by decide +kernel)
  have haddr : (imageOf builtins guarded).Addressable := by
    unfold Image.Addressable
    decide +kernel
  have hloop : guarded.isLoopFree = true := by decide +kernel
  have hrec : guarded.RecursionFree := by
    refine Program.recursionFree_iff.mpr ⟨fun name => if name = "main" then 1 else 0, ?_⟩
    have hcalls : ∀ d ∈ functionsOf guarded, ∀ g ∈ d.calls,
        (∃ d' ∈ functionsOf guarded, d'.name = g) → g ≠ "main" ∧ d.name = "main" := by
      decide +kernel
    rintro f g ⟨⟨d, hd, rfl, hg⟩, hmem⟩
    obtain ⟨hg', hd'⟩ := hcalls d hd g hg hmem
    simp [hg', hd']
  obtain ⟨hforward, hends⟩ := loop_free_programs_terminate hcompile haddr hloop
  refine ⟨hloop, hrec, ?_, ?_⟩
  · have hjump : (imageOf builtins guarded).code[31]?.map Instr.op = some .rjmp := by
      decide +kernel
    obtain ⟨i, hi, hop⟩ := Option.map_eq_some_iff.mp hjump
    obtain ⟨n, t, hdest, ht, hlt, -⟩ := hforward hi hop
    exact ⟨i, n, t, hi, hop, hdest, ht, hlt⟩
  · obtain ⟨bound, hbound⟩ := hends hrec
    exact ⟨bound, fun hstart => (hbound hstart).2⟩

end Stepwise
