import Mathlib
import Stepwise.Proofs.StackDiscipline

/-!
# The height of the stack

In a compiled program the address alone says how high the stack stands above the base pointer. It is
read off the image: one for the link slot, and what the instructions of the function up to the
address add. Where a statement starts, nothing but the slots of variables lies on the stack.

## Main definitions

* `Image.heightAt`: the height of the stack at an address
* `Image.reservedBefore`: the number of slots that are reserved up to an address
* `Definition.StartsAt`: the addresses where the statements of a function start

## Main results

* `static_stack_discipline`: in every reachable state the stack is as high as the address says
-/

namespace Stepwise

/-- What the instructions of a function that starts at `start` add to the stack up to `pc`. -/
def Image.riseBefore (image : Image) (start pc : Nat) : Int :=
  ((image.code.extract start pc).toList.map Instr.rise).sum

/-- How many slots of variables a function that starts at `start` reserves up to `pc`. -/
def Image.reservedBefore (image : Image) (start pc : Nat) : Nat :=
  (image.code.extract start pc).toList.countP Instr.reserves

/-- The height of the stack above the base pointer at an address of a function. -/
def Image.heightAt (image : Image) (pc : Nat) : Nat :=
  match image.symbols.functionAt? pc with
  | some (_, e) => (1 + image.riseBefore e.addr pc).toNat
  | none => 0

theorem toList_extract_succ {code : Array Instr} {start pc : Nat} {j : Instr} (h : start ≤ pc)
    (hj : code[pc]? = some j) :
    (code.extract start (pc + 1)).toList = (code.extract start pc).toList ++ [j] := by
  obtain ⟨hlt, rfl⟩ := Array.getElem?_eq_some_iff.mp hj
  have hpush := Array.push_extract_getElem hlt (i := start)
  rw [Nat.min_eq_left h] at hpush
  rw [← hpush, Array.toList_push]

theorem Image.riseBefore_succ {image : Image} {start pc : Nat} {j : Instr} (h : start ≤ pc)
    (hj : image.code[pc]? = some j) :
    image.riseBefore start (pc + 1) = image.riseBefore start pc + j.rise := by
  rw [riseBefore, toList_extract_succ h hj]
  simp [riseBefore]

theorem Image.reservedBefore_succ {image : Image} {start pc : Nat} {j : Instr} (h : start ≤ pc)
    (hj : image.code[pc]? = some j) :
    image.reservedBefore start (pc + 1) = image.reservedBefore start pc + j.reserves.toNat := by
  rw [reservedBefore, toList_extract_succ h hj, List.countP_append]
  cases hres : j.reserves <;> simp [reservedBefore, hres]

/-! ## Where statements start -/

namespace Compiler.Definition

open Lowering

/-- Where the statements of a function body stand. -/
def site (d : Definition) : Site := ⟨d.source.name, d.source.ret, none, false⟩

/-- The statements of a function whose code starts at `addr`, at every depth, each with the draft in
which it was lowered and the address of its code. -/
inductive Contains (d : Definition) (addr : Nat) : Occurrence → Prop
  /-- A statement of the body. The slots of the variables inside it are reserved in front. -/
  | body {pre post : List Stmt} {stmt : Stmt} {before here : Code} {d₁ d₂ : Draft} :
    d.source.body = pre ++ stmt :: post → lowerBody d.site pre d.start = .ok (before, d₁) →
    lowerStmt d.site stmt d₁ = .ok (here, d₂) →
    Contains d addr ⟨d.site, d₁, stmt, addr + before.size + d₂.reserved.size⟩
  | part {o o' : Occurrence} : Contains d addr o → Part o o' → Contains d addr o'

/-- A statement of a function whose code starts at `addr` starts at this address. -/
inductive StartsAt (d : Definition) (addr : Nat) : Nat → Prop
  /-- A statement of the body starts with its reservations. -/
  | front {pre post : List Stmt} {stmt : Stmt} {before : Code} {d₁ : Draft} :
    d.source.body = pre ++ stmt :: post → lowerBody d.site pre d.start = .ok (before, d₁) →
    StartsAt d addr (addr + before.size)
  | own {o : Occurrence} : Contains d addr o → StartsAt d addr o.addr

end Compiler.Definition

namespace Setting

open Lowering

variable {S : Setting} {f : Routine}

/-- The rest of a body stands behind the statements before it. -/
theorem Rooted.rest {site : Site} {pre post : List Stmt} {d d₁ d' : Draft} {addr : Nat}
    {before code : Code} (hsize : f.code.size < 2 ^ 63) (hnest : site.nested = false)
    (hpre : lowerBody site pre d = .ok (before, d₁))
    (hrun : lowerBody site (pre ++ post) d = .ok (code, d')) (hroot : S.Rooted f d d' addr code) :
    ∃ after, lowerBody site post d₁ = .ok (after, d') ∧
      S.Rooted f d₁ d' (addr + before.size) after := by
  induction pre generalizing d before addr code with
  | nil =>
    obtain ⟨rfl, rfl⟩ := lowerBody_nil_eq_ok.mp hpre
    exact ⟨code, hrun, hroot⟩
  | cons stmt rest ih =>
    obtain ⟨here, d₂, after, hhere, hafter, rfl⟩ := lowerBody_cons_eq_ok.mp hpre
    obtain ⟨here', d₃, after', hhere', hafter', rfl⟩ := lowerBody_cons_eq_ok.mp hrun
    cases hhere.symm.trans hhere'
    have hrest := ih hafter hafter' (hroot.tail hsize hnest hhere hafter')
    rwa [Nat.add_assoc, ← Code.size_append] at hrest

variable {pc : Nat}

theorem Valid.not_holds_of_ends (hv : S.Valid) (hf : f ∈ S.routines) (h : S.Ends pc) :
    ¬ f.Holds pc := by
  intro hpc
  obtain ⟨j, t, hj, hd, -⟩ := h
  obtain ⟨j', op, hj', hd', hp⟩ := performs_of_holds hv hf hpc
  cases hj.symm.trans hj'
  cases hd.symm.trans hd'
  cases hp

/-- The instructions outside of functions are not those of a routine: a routine has no absolute
jump, and the address behind a call belongs to the routine too. -/
theorem Valid.not_holds_of_atRest (hv : S.Valid) (hf : f ∈ S.routines) (h : S.AtRest pc) :
    ¬ f.Holds pc := by
  rcases h with rfl | hends | ⟨j, t, n, g, hj, hd, -, -, -, -, hends⟩
  · exact fun hpc => absurd (hv.lt_size hf hpc) (lt_irrefl _)
  · exact hv.not_holds_of_ends hf hends
  · intro hpc
    obtain ⟨j', op, hj', hd', hp⟩ := performs_of_holds hv hf hpc
    cases hj.symm.trans hj'
    cases hd.symm.trans hd'
    cases hp with
    | call _ _ _ _ _ hat => exact hv.not_holds_of_ends hf hends hat.holds

/-- An operand in the frame without an index lies between the arguments and the top of the stack. -/
theorem Performs.offset {j : Instr} {op : Operation} {offset : Int} (hp : S.Performs f pc j op)
    (hmem : .ptr ⟨.frame, offset, none⟩ ∈ op.operands) :
    -(f.argc : Int) ≤ offset ∧ offset < f.height pc := by
  cases hp with
  | compute hdest hsrc =>
    simp only [Operation.operands, List.mem_cons, List.not_mem_nil, or_false] at hmem
    rcases hmem with rfl | rfl
    · exact hdest.1
    · exact hsrc
  | change hdest =>
    simp only [Operation.operands, List.mem_cons, List.not_mem_nil, or_false] at hmem
    subst hmem
    exact hdest.1
  | move hdest hsrc =>
    simp only [Operation.operands, List.mem_cons, List.not_mem_nil, or_false] at hmem
    rcases hmem with rfl | rfl
    · exact hdest.1
    · exact hsrc
  | push hsrc =>
    simp only [Operation.operands, List.mem_cons, List.not_mem_nil, or_false] at hmem
    subst hmem
    exact hsrc
  | @jump t condition target _ hcond =>
    cases condition with
    | none => simp [Operation.operands] at hmem
    | some o =>
      obtain ⟨x, rfl⟩ := hcond o rfl
      simp [Operation.operands] at hmem
  | load => simp [Operation.operands] at hmem
  | reserve => simp [Operation.operands] at hmem
  | pop => simp [Operation.operands] at hmem
  | host => simp [Operation.operands] at hmem
  | call => simp [Operation.operands] at hmem
  | ret => simp [Operation.operands] at hmem

/-- A reservation pushes a value for the variable that the next slot belongs to. -/
theorem Performs.of_reserves {j : Instr} {op : Operation} (hp : S.Performs f pc j op)
    (hres : j.reserves = true) :
    ∃ v, op = .push (.imm v) ∧ f.height pc = f.slots pc ∧ f.frame.Owns (f.slots pc) v.ty := by
  cases hp with
  | reserve heq howns _ _ => exact ⟨_, rfl, heq, howns⟩
  | _ => cases hres.symm.trans ‹j.reserves = false›

/-- Where the rest of a body stands, only the slots of variables lie on the stack. -/
theorem Rooted.at_start {d d' : Draft} {addr : Nat} {code : Code}
    (hroot : S.Rooted f d d' addr code) : f.At d.frame.next d.frame.next addr := hroot.laid.start

end Setting

namespace Compiler.Compilation

open Lowering

variable {hosts : List HostDecl} {program : Program} {image : Image}
  (c : Compilation hosts program image)

variable {pc : Nat}

/-- The counts of a routine go on as its instructions say. -/
theorem counts_succ (hsize : image.code.size < 2 ^ 63) {r : Routine} (hr : r ∈ c.setting.routines)
    (hpc : r.Holds pc) (hnext : r.Holds (pc + 1)) :
    ∃ j, image.code[pc]? = some j ∧ r.height (pc + 1) = r.height pc + j.rise ∧
      r.slots (pc + 1) = r.slots pc + j.reserves.toNat := by
  obtain ⟨i, hi, hadm, hend | hat⟩ := c.runs hsize hr hpc
  · exact absurd hnext hend.2
  · obtain ⟨j, hj, hop, hd, hs, hc⟩ := exists_of_placed hi
    refine ⟨j, hj, ?_, ?_⟩
    · rw [hat.height]
      -- what a call takes off is a number already before its operands are settled
      have hrise : j.rise = i.rise := by
        unfold Instr.rise
        rw [hop, hs]
        unfold Setting.Admits at hadm
        split at hadm <;> simp_all [Operand.settle]
      rw [hrise]
    · rw [hat.slots, Instr.reserves, Instr.reserves, hop, hc]

/-- **The counts of a routine are read off the image.** -/
theorem counts_eq (hsize : image.code.size < 2 ^ 63) {r : Routine} (hr : r ∈ c.setting.routines)
    (hpc : r.Holds pc) :
    r.height pc = 1 + image.riseBefore r.entry pc ∧
      r.slots pc = 1 + image.reservedBefore r.entry pc := by
  obtain ⟨hle, hlt⟩ := hpc
  induction pc, hle using Nat.le_induction with
  | base =>
    simp [Routine.height, Routine.slots, Image.riseBefore, Image.reservedBefore]
  | succ pc hle ih =>
    obtain ⟨hh, hs⟩ := ih (by omega)
    obtain ⟨j, hj, hh', hs'⟩ := c.counts_succ hsize hr ⟨hle, by omega⟩ ⟨by omega, hlt⟩
    rw [hh', hs', hh, hs, Image.riseBefore_succ hle hj, Image.reservedBefore_succ hle hj]
    exact ⟨by ring, by ring⟩

theorem heightAt_eq (hsize : image.code.size < 2 ^ 63) {r : Routine} (hr : r ∈ c.setting.routines)
    (hpc : r.Holds pc) : image.heightAt pc = (r.height pc).toNat := by
  obtain ⟨d, -, hat, -⟩ := c.functionAt?_of_holds hr hpc
  rw [Image.heightAt, hat, (c.counts_eq hsize hr hpc).1]
  rfl

/-- A statement below the top level, or one that declares nothing, occurs in its routine. -/
theorem occurs_of_contains {d : Definition} {entry : Nat} (hsize : image.code.size < 2 ^ 63)
    (hr : d.routine entry ∈ c.setting.routines) (hd : d ∈ c.definitions) {o : Occurrence}
    (ho : d.Contains entry o) :
    (∃ k, c.setting.Occurs (d.routine entry) k o) ∨
      ((∃ decl, o.stmt = .declare decl) ∧ ∃ k : Nat, (d.routine entry).At k k o.addr) := by
  have hfit := c.size_lt_of_routine hsize hr
  induction ho with
  | @body pre post stmt before here d₁ d₂ hbody hpre hstmt =>
    have hrun := (c.compiled hd).lowered
    rw [hbody] at hrun
    obtain ⟨after, hrest, hroot⟩ := (c.rooted hr hd).rest hfit rfl hpre hrun
    obtain ⟨here', d₃, after', hhere', hafter', rfl⟩ := lowerBody_cons_eq_ok.mp hrest
    cases hstmt.symm.trans hhere'
    by_cases hdef : Deferred d.site stmt
    · exact .inl ⟨_, hroot.occurs rfl rfl hstmt hdef hafter'⟩
    · -- only a declaration reserves its slots itself, and nothing is reserved in front of it
      have hdecl := exists_declare_of_not_deferred hdef
      obtain ⟨_, -, -, hnone, -⟩ := Setting.grows_of_bodyStmt rfl hroot.empty hstmt
      refine .inr ⟨hdecl, d₁.frame.next, ?_⟩
      rw [hnone hdef, Code.size_nil, Nat.add_zero]
      exact hroot.at_start
  | part _ hp ih =>
    rcases ih with ⟨k, ho⟩ | ⟨⟨decl, hdecl⟩, -⟩
    · exact .inl ⟨k, ho.part hfit hp⟩
    · cases hp <;> cases hdecl

/-- **Where a statement starts, only the slots of variables lie on the stack.** -/
theorem at_of_startsAt {d : Definition} {entry addr : Nat} (hsize : image.code.size < 2 ^ 63)
    (hr : d.routine entry ∈ c.setting.routines) (hd : d ∈ c.definitions)
    (h : d.StartsAt entry addr) : ∃ k : Nat, (d.routine entry).At k k addr := by
  cases h with
  | front hbody hpre =>
    have hfit := c.size_lt_of_routine hsize hr
    have hrun := (c.compiled hd).lowered
    rw [hbody] at hrun
    obtain ⟨after, -, hroot⟩ := (c.rooted hr hd).rest hfit rfl hpre hrun
    exact ⟨_, hroot.at_start⟩
  | own ho =>
    rcases c.occurs_of_contains hsize hr hd ho with ⟨k, code, d', -, -, hs⟩ | ⟨-, hat⟩
    · exact ⟨k, hs.laid.start⟩
    · exact hat

/-- In a function, the stack is as high as the address says, and operands in the frame lie between
the arguments of the call and the top of the stack. -/
theorem height_of_steady (hsize : image.Addressable) {s : State} (hs : c.setting.Steady s)
    {f : String × CodeEntry} (hf : image.symbols.functionAt? s.pc = some f) :
    s.sp = s.bp + image.heightAt s.pc ∧
      ∃ frame rest, s.frames = frame :: rest ∧
        ∀ i offset, image.code[s.pc]? = some i → .ptr ⟨.frame, offset, none⟩ ∈ i.operands →
          -(frame.argc : Int) ≤ offset ∧ offset < image.heightAt s.pc := by
  obtain ⟨d, -, -, -, hr, hpc⟩ := c.routine_of_functionAt? hf
  have hv := c.valid hsize
  obtain ⟨hchain, -⟩ := hs
  -- outside of all functions there is no function at the counter
  cases hframes : s.frames with
  | nil =>
    rw [hframes] at hchain
    exact absurd hpc (hv.not_holds_of_atRest hr hchain.1)
  | cons frame rest =>
    rw [hframes] at hchain
    obtain ⟨g, hg, ha, -⟩ := hchain
    obtain rfl := c.holds_unique hr hg hpc ha.holds
    obtain ⟨j, op, hj, hd, hp⟩ := Setting.performs_of_holds hv hr hpc
    have hheight := c.heightAt_eq hsize hr hpc
    have hsp := ha.height
    have hslots := ha.slots_le
    refine ⟨by omega, frame, rest, rfl, fun i offset hi hmem => ?_⟩
    cases hi.symm.trans hj
    rw [operands_of_decode hd] at hmem
    have hoffset := hp.offset hmem
    rw [ha.argc]
    omega

include c in
/-- A reservation pushes the slot of a variable where the frame has it. -/
theorem height_of_reserves (hsize : image.Addressable) {name : String} {e : CodeEntry}
    (he : image.symbols.code.get? name = some e) (hpc : e.covers pc = true) {i : Instr}
    (hi : image.code[pc]? = some i) (hres : i.reserves = true) :
    image.heightAt pc = 1 + image.reservedBefore e.addr pc ∧
      ∃ v key entry, i.operands = [.imm v] ∧ e.frame.get? key = some entry ∧
        entry.Covers (image.heightAt pc) ∧ v.ty = entry.ty := by
  obtain ⟨d, hd, -, hentry, hr⟩ := c.routine_of_mem_entries (Table.get?_eq_some_iff.mp he)
  have hholds : (d.routine e.addr).Holds pc := by
    rw [hentry] at hpc
    simp only [CodeEntry.covers, Definition.entryAt, Bool.and_eq_true] at hpc
    exact ⟨of_decide_eq_true hpc.1, of_decide_eq_true hpc.2⟩
  obtain ⟨hh, hs⟩ := c.counts_eq hsize hr hholds
  obtain ⟨j, op, hj, hdec, hp⟩ := Setting.performs_of_holds (c.valid hsize) hr hholds
  cases hi.symm.trans hj
  have hops := operands_of_decode hdec
  obtain ⟨v, rfl, heq, key, entry, hkey, hcovers, hty⟩ := hp.of_reserves hres
  have hheight := c.heightAt_eq hsize hr hholds
  rw [heq] at hheight
  have hslots : image.heightAt pc = (d.routine e.addr).slots pc := by omega
  refine ⟨by rw [hslots, hs]; rfl, v, key, entry, hops, ?_, by rw [hslots]; exact hcovers,
    hty.symm⟩
  rw [hentry]
  exact hkey

end Compiler.Compilation

/-- **The height of the stack is a function of the address.** In every state that a compiled program
reaches, with any host, the stack is as high above the base pointer as `Image.heightAt` says, and
every operand in the frame without an index lies between the arguments of the innermost call and the
top of the stack; a program that has halted leaves nothing behind. Where a statement starts, the
height is one more than the number of slots reserved so far, and the `k`th reservation of a function
pushes the slot that the frame of the function has at `k`. -/
theorem static_stack_discipline {hosts : List HostDecl} {program : Program} {image : Image}
    (hcompile : compile hosts program = .ok image) (haddr : image.Addressable) :
    (∀ {σ : Type} {m₀ m : Machine σ} {n : Nat}, m₀.Starts image → Machine.Steps n m₀ m →
      (∀ f, image.symbols.functionAt? m.state.pc = some f →
        m.state.sp = m.state.bp + image.heightAt m.state.pc ∧
        ∃ frame rest, m.state.frames = frame :: rest ∧
          ∀ i offset, image.code[m.state.pc]? = some i → .ptr ⟨.frame, offset, none⟩ ∈ i.operands →
            -(frame.argc : Int) ≤ offset ∧ offset < image.heightAt m.state.pc) ∧
      ∀ pc m', m.executeNext = .error (.halted pc) m' →
        m.state.pc = image.code.size ∧ m.state.sp = 0 ∧ m.state.bp = 0 ∧ m.state.frames = []) ∧
    (∀ c : Compiler.Compilation hosts program image, ∀ d ∈ c.definitions, ∀ e,
      image.symbols.code.get? d.source.name = some e → ∀ addr, d.StartsAt e.addr addr →
        image.heightAt addr = 1 + image.reservedBefore e.addr addr) ∧
    ∀ name e, image.symbols.code.get? name = some e → ∀ pc i, e.covers pc = true →
      image.code[pc]? = some i → i.reserves = true →
        image.heightAt pc = 1 + image.reservedBefore e.addr pc ∧
        ∃ v key entry, i.operands = [.imm v] ∧ e.frame.get? key = some entry ∧
          entry.Covers (image.heightAt pc) ∧ v.ty = entry.ty := by
  obtain ⟨c, -⟩ := Compiler.exists_compilation hcompile
  refine ⟨fun {σ m₀ m n} hstart hrun => ?_, fun c d hd e he addr hat => ?_,
    fun name e he pc i hpc hi hres => c.height_of_reserves haddr he hpc hi hres⟩
  · obtain ⟨himage, hs⟩ := c.steady_of_steps haddr hstart hrun
    refine ⟨fun f hf => c.height_of_steady haddr hs hf, fun pc m' hhalt => ?_⟩
    obtain ⟨-, ⟨hnone, -⟩ | ⟨i, hi, he⟩⟩ := Machine.executeNext_eq_error_iff.mp hhalt
    · rw [himage] at hnone
      exact hs.halted (c.valid haddr) hnone
    · -- an instruction never reports that the program has halted
      rw [himage] at hi
      cases hs.fault (c.valid haddr) hi he with
      | index _ hblames => obtain ⟨-, ⟨k, hk⟩ | hk⟩ := hblames <;> cases hk
  · obtain ⟨-, hr⟩ := c.routine_of_get? hd he
    obtain ⟨k, hk⟩ := c.at_of_startsAt haddr hr hd hat
    have hheight := c.heightAt_eq haddr hr hk.holds
    obtain ⟨-, hslots⟩ := c.counts_eq haddr hr hk.holds
    rw [hk.height] at hheight
    rw [hk.slots] at hslots
    have hentry : (d.routine e.addr).entry = e.addr := rfl
    rw [hentry] at hslots
    omega

/-- A program with a variable below the top level of its function. -/
def nested : Program :=
  ⟨[Build.func "main" [] .void
    [Build.var .int "x" (some (Build.lit (.int 1))),
      Build.branch (Build.ident "x") (Build.block [Build.var .double "y" none]) none]]⟩

/-- Both slots are reserved before the branch, so the stack is three high there. -/
theorem static_stack_discipline_nested :
    (imageOf [] nested).heightAt 4 = 3 ∧
      ∀ (n : Nat) (m : Machine Unit), Machine.Steps n (.load (imageOf [] nested) ()) m →
        m.state.pc = 4 → m.state.sp = m.state.bp + 3 := by
  have hcompile : compile [] nested = .ok (imageOf [] nested) :=
    compile_eq_ok_imageOf (by decide +kernel)
  have haddr : (imageOf [] nested).Addressable := by
    unfold Image.Addressable
    decide +kernel
  have hheight : (imageOf [] nested).heightAt 4 = 3 := by decide +kernel
  have hfun : ((imageOf [] nested).symbols.functionAt? 4).isSome = true := by decide +kernel
  generalize imageOf [] nested = image at hcompile haddr hheight hfun ⊢
  refine ⟨hheight, fun n m hrun hpc => ?_⟩
  obtain ⟨f, hf⟩ := Option.isSome_iff_exists.mp hfun
  rw [← hpc] at hf
  have hsp := (((static_stack_discipline hcompile haddr).1 ⟨rfl, rfl⟩ hrun).1 f hf).1
  rwa [hpc, hheight] at hsp

end Stepwise
