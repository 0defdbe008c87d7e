import Mathlib
import Stepwise.Proofs.StackDiscipline

/-!
# The symbol map

The compiler writes down where each function starts by counting the instructions of the functions
before it, and the assembler computes the targets of calls and jumps by counting the instructions
before a label. Both agree: the entries of the symbol map lie side by side from the first
instructions to the end of the code, and what the instructions refer to is what the map has.

## Main definitions

* `Tiles`: entries that lie side by side
* `Instr.Enters`: an instruction that calls the code at an address
* `Image.Mapped`: the symbol map of an image describes its code

## Main results

* `symbol_map_agrees`: it does in every compiled program
-/

namespace Stepwise

open Lowering Compiler

/-- The number of arguments that a function takes, by its frame: they lie below the link slot. -/
def CodeEntry.argc (e : CodeEntry) : Nat := e.frame.belowLink

/-- Entries lie side by side from one address to another, and none is empty. -/
def Tiles : Nat → List (String × CodeEntry) → Nat → Prop
  | start, [], stop => start = stop
  | start, (_, e) :: rest, stop =>
    e.addr = start ∧ 0 < e.size ∧ Tiles (e.addr + e.size) rest stop

/-- An instruction calls the code at an address with so many arguments. -/
structure Instr.Enters (i : Instr) (addr argc : Nat) : Prop where
  op : i.op = .call
  dest : ∃ t : Int64, i.dest = some (.imm (.int t)) ∧ t.toInt = addr
  src : ∃ n : Int64, i.src = some (.imm (.int n)) ∧ n.toInt = argc

namespace Image

/-- The number of instructions in front of the first function: a call of `main`, if there is one,
and a jump to the end. -/
def stubSize (image : Image) : Nat := if image.symbols.code.contains "main" then 2 else 1

/-- The symbol map of an image describes its code. -/
structure Mapped (image : Image) : Prop where
  /-- The functions lie side by side behind the first instructions. -/
  tiles : Tiles image.stubSize image.symbols.code.entries image.code.size
  /-- Every address there lies in exactly one function, the one that is found. -/
  covered : ∀ pc, image.stubSize ≤ pc → pc < image.code.size →
    ∃ name e, image.symbols.functionAt? pc = some (name, e) ∧
      ∀ name' e', image.symbols.code.get? name' = some e' ∧ e'.covers pc = true ↔
        (name', e') = (name, e)
  /-- No other address lies in a function. -/
  outside : ∀ pc, pc < image.stubSize ∨ image.code.size ≤ pc →
    image.symbols.functionAt? pc = none
  /-- A function ends with a return. -/
  ends : ∀ name e, image.symbols.code.get? name = some e →
    ∃ i : Instr, image.code[e.addr + (e.size - 1)]? = some i ∧ i.op = .ret
  /-- The first instructions end with a jump to the end of the code. -/
  halts : ∃ (i : Instr) (t : Int64), image.code[image.stubSize - 1]? = some i ∧ i.op = .jmp ∧
    i.dest = some (.imm (.int t)) ∧ i.src = none ∧ t.toInt = image.code.size
  /-- A call that is not one of a host function enters the function that its remark names, with as
  many arguments as that takes. -/
  calls : ∀ (pc : Nat) (i : Instr), image.code[pc]? = some i → i.op = .call →
    (∀ host, i.dest ≠ some (.host host)) →
    ∃ name e, i.comment = some name ∧ image.symbols.code.get? name = some e ∧
      i.Enters e.addr e.argc
  /-- A relative jump stays in its function. -/
  jumps : ∀ (pc : Nat) (i : Instr), image.code[pc]? = some i → i.op = .rjmp →
    ∃ (d : Int64) (name : String) (e : CodeEntry), i.dest = some (.imm (.int d)) ∧
      image.symbols.functionAt? pc = some (name, e) ∧ (e.addr : Int) ≤ pc + d.toInt ∧
      pc + d.toInt < e.addr + e.size
  /-- A frame operand without an index names a variable of its function. -/
  frames : ∀ (pc : Nat) (i : Instr) (name : String) (e : CodeEntry) (offset : Int),
    image.code[pc]? = some i → image.symbols.functionAt? pc = some (name, e) →
    .ptr ⟨.frame, offset, none⟩ ∈ i.operands →
    ∃ key entry, e.frame.get? key = some entry ∧ entry.offset = offset

end Image

/-! ## Instructions that keep the discipline -/

namespace Setting

variable {S : Setting} {f : Routine} {h : Int} {r addr : Nat} {i : Instr}

/-- A call names what it calls. -/
theorem admits_of_call (ha : S.Admits f h r addr i) (hop : i.op = .call) :
    ∃ t n, ∃ argc : Nat, i.dest = some t ∧ i.src = some (.imm (.int n)) ∧ n.toInt = argc ∧
      S.Calls argc t ∧ ∀ l, t = .label l → i.comment = some l := by
  obtain ⟨op, dest, src, comment, origin⟩ := i
  obtain rfl : op = .call := hop
  rcases dest with - | t
  · exact ha.elim
  rcases src with - | ⟨n | _ | _⟩ | _ | _ | _ | _ | _
  case some.imm.int =>
    obtain ⟨argc, hn, -, hcalls, hname⟩ := ha
    exact ⟨t, n, argc, rfl, rfl, hn, hcalls, hname⟩
  all_goals exact ha.elim

/-- A relative jump goes to a label of its function, or over the next instruction. -/
theorem admits_of_rjmp (ha : S.Admits f h r addr i) (hop : i.op = .rjmp) :
    (∃ l target, i.dest = some (.label l) ∧ S.program.labels.get? l = some target ∧
      f.Holds target) ∨ (i.dest = some (.imm (.int 2)) ∧ f.Holds (addr + 2)) := by
  obtain ⟨op, dest, src, comment, origin⟩ := i
  obtain rfl : op = .rjmp := hop
  unfold Admits at ha
  split at ha
  case h_15 hd hs =>
    cases hd
    obtain ⟨target, hl, hat⟩ := ha
    exact .inl ⟨_, target, rfl, hl, hat.holds⟩
  case h_16 hd hs =>
    cases hd
    obtain ⟨target, hl, hat⟩ := ha
    exact .inl ⟨_, target, rfl, hl, hat.holds⟩
  case h_17 hd hs =>
    cases hd
    obtain ⟨rfl, hat⟩ := ha
    exact .inr ⟨rfl, hat.holds⟩
  case h_20 => exact ha.elim
  all_goals contradiction

/-- Every operand can be read, or names code. -/
theorem operands_of_admits (ha : S.Admits f h r addr i) {o : Operand} (ho : o ∈ i.operands) :
    S.Reads f h o ∨ (∃ l, o = .label l) ∨ ∃ host, o = .host host := by
  obtain ⟨op, dest, src, comment, origin⟩ := i
  unfold Admits at ha
  simp only [Instr.operands] at ha ho
  -- the discipline lists the instructions, and each entry says what its operands are
  split at ha
  case h_1 | h_2 | h_3 | h_4 | h_5 | h_6 | h_7 | h_8 | h_9 =>
    rcases List.mem_pair.mp ho with rfl | rfl
    · exact .inl ha.1.1
    · exact .inl ha.2
  case h_10 | h_11 =>
    obtain rfl := List.mem_singleton.mp ho
    exact .inl ha.1
  case h_12 | h_17 =>
    rcases List.mem_pair.mp ho with rfl | rfl
    · exact .inl trivial
    · exact .inl trivial
  case h_13 =>
    obtain rfl := List.mem_singleton.mp ho
    exact .inl ha.1
  case h_14 =>
    obtain rfl := List.mem_singleton.mp ho
    exact .inl trivial
  case h_15 l =>
    obtain rfl := List.mem_singleton.mp ho
    exact .inr (.inl ⟨l, rfl⟩)
  case h_16 l x =>
    rcases List.mem_pair.mp ho with rfl | rfl
    · exact .inr (.inl ⟨l, rfl⟩)
    · exact .inl trivial
  case h_18 t n =>
    obtain ⟨argc, -, -, hcalls, -⟩ := ha
    rcases List.mem_pair.mp ho with rfl | rfl
    · cases o with
      | label l => exact .inr (.inl ⟨l, rfl⟩)
      | host name => exact .inr (.inr ⟨name, rfl⟩)
      | _ => exact hcalls.elim
    · exact .inl trivial
  case h_19 => cases ho
  case h_20 => exact ha.elim

/-- Only a variable settles to a place in the frame. -/
theorem exists_of_settle_frame {o : Operand} {op : OpCode} {pc : Nat} {offset : Int}
    (ho : S.Reads f h o ∨ (∃ l, o = .label l) ∨ ∃ host, o = .host host)
    (hs : o.settle S.program.labels f.frame op pc = .ptr ⟨.frame, offset, none⟩) :
    ∃ key e, f.frame.entries.get? key = some e ∧ e.offset = offset := by
  rcases ho with hread | ⟨l, rfl⟩ | ⟨host, rfl⟩
  · unfold Reads at hread
    split at hread
    case h_5 =>
      obtain ⟨e, he, -⟩ := hread
      simp only [Operand.settle, FrameLayout.offset?, he, Option.map_some] at hs
      cases hs
      exact ⟨_, e, he, rfl⟩
    case h_6 =>
      obtain ⟨rfl, e, he⟩ := hread
      simp only [Operand.settle, FrameLayout.offset?, he, Option.map_some] at hs
      cases hs
    case h_7 => exact hread.elim
    all_goals cases hs
  · simp only [Operand.settle] at hs
    split at hs <;> cases hs
  · cases hs

end Setting

/-! ## Entries side by side -/

namespace Tiles

variable {start stop pc : Nat} {es : List (String × CodeEntry)}

/-- Entries lie between the first and the last address. -/
theorem bounds (h : Tiles start es stop) {x : String × CodeEntry} (hx : x ∈ es) :
    start ≤ x.2.addr ∧ x.2.addr + x.2.size ≤ stop := by
  induction es generalizing start with
  | nil => cases hx
  | cons first rest ih =>
    obtain ⟨haddr, hsize, hrest⟩ := h
    have hle : first.2.addr + first.2.size ≤ stop := by
      clear ih hx
      induction rest generalizing start first with
      | nil => exact le_of_eq hrest
      | cons second rest ih =>
        obtain ⟨haddr', hsize', hrest'⟩ := hrest
        have hstop := ih second rfl hsize' hrest'
        omega
    rcases List.mem_cons.mp hx with rfl | hx
    · exact ⟨haddr.ge, hle⟩
    · obtain ⟨hlow, hhigh⟩ := ih hrest hx
      exact ⟨by omega, hhigh⟩

/-- No entry is empty. -/
theorem size_pos (h : Tiles start es stop) {x : String × CodeEntry} (hx : x ∈ es) :
    0 < x.2.size := by
  induction es generalizing start with
  | nil => cases hx
  | cons first rest ih =>
    obtain ⟨-, hsize, hrest⟩ := h
    rcases List.mem_cons.mp hx with rfl | hx
    · exact hsize
    · exact ih hrest hx

/-- Every address between them lies in an entry. -/
theorem exists_covers (h : Tiles start es stop) (hlow : start ≤ pc) (hhigh : pc < stop) :
    ∃ x ∈ es, x.2.covers pc = true := by
  induction es generalizing start with
  | nil =>
    obtain rfl : start = stop := h
    omega
  | cons first rest ih =>
    obtain ⟨rfl, -, hrest⟩ := h
    by_cases hfirst : pc < first.2.addr + first.2.size
    · refine ⟨first, List.mem_cons_self, ?_⟩
      simp [CodeEntry.covers, hlow, hfirst]
    · obtain ⟨x, hx, hcovers⟩ := ih hrest (by omega)
      exact ⟨x, List.mem_cons_of_mem _ hx, hcovers⟩

/-- No address lies in two entries. -/
theorem covers_unique (h : Tiles start es stop) {x y : String × CodeEntry} (hx : x ∈ es)
    (hy : y ∈ es) (hpx : x.2.covers pc = true) (hpy : y.2.covers pc = true) : x = y := by
  induction es generalizing start with
  | nil => cases hx
  | cons first rest ih =>
    obtain ⟨-, -, hrest⟩ := h
    simp only [CodeEntry.covers, Bool.and_eq_true, decide_eq_true_eq] at hpx hpy
    -- an address of the first entry is too low for the others
    rcases List.mem_cons.mp hx with rfl | hx' <;> rcases List.mem_cons.mp hy with rfl | hy'
    · rfl
    · have hlow := (hrest.bounds hy').1
      omega
    · have hlow := (hrest.bounds hx').1
      omega
    · exact ih hrest hx' hy'

end Tiles

/-- What the symbol map finds when its entries lie side by side. -/
theorem Symbols.functionAt?_eq_some_iff {symbols : Symbols} {start stop pc : Nat} {name : String}
    {e : CodeEntry} (h : Tiles start symbols.code.entries stop) :
    symbols.functionAt? pc = some (name, e) ↔
      symbols.code.get? name = some e ∧ e.covers pc = true := by
  rw [Table.get?_eq_some_iff]
  unfold functionAt?
  constructor
  · intro hfound
    exact ⟨List.mem_of_find?_eq_some hfound, by simpa using List.find?_some hfound⟩
  · rintro ⟨hmem, hcovers⟩
    have hsome : (symbols.code.entries.find? (·.2.covers pc)).isSome := by
      rw [List.find?_isSome]
      exact ⟨_, hmem, hcovers⟩
    obtain ⟨y, hfound⟩ := Option.isSome_iff_exists.mp hsome
    have hy : y.2.covers pc = true := by simpa using List.find?_some hfound
    rw [hfound, h.covers_unique (List.mem_of_find?_eq_some hfound) hmem hy hcovers]

namespace Compiler

theorem tiles_codeEntries {addr : Nat} {fs : List CompiledFunction}
    (hpos : ∀ f ∈ fs, 0 < f.code.size) :
    Tiles addr (codeEntries addr fs) (addr + (Code.size (fs.flatMap (·.code)))) := by
  induction fs generalizing addr with
  | nil => rfl
  | cons f rest ih =>
    refine ⟨rfl, hpos f List.mem_cons_self, ?_⟩
    have hrest := @ih (addr + f.code.size) fun g hg => hpos g (List.mem_cons_of_mem _ hg)
    rwa [List.flatMap_cons, Code.size_append, ← Nat.add_assoc]

namespace Compilation

variable {hosts : List HostDecl} {program : Program} {image : Image}

theorem keys_code (c : Compilation hosts program image) :
    image.symbols.code.keys = (functionsOf program).map Function.name := by
  show image.symbols.code.entries.map Prod.fst = _
  rw [c.entries_code, keys_codeEntries, List.map_map, ← c.sources_eq, List.map_map]
  rfl

/-- There is a call of `main` if the program has such a function. -/
theorem hasMain_iff (c : Compilation hosts program image) : hasMain c.progress.scope = true ↔
    image.symbols.code.contains "main" = true := by
  have hkeys : image.symbols.code.contains "main" = true ↔
      ∃ f ∈ functionsOf program, f.name = "main" := by
    rw [← List.mem_map, ← c.keys_code, Table.contains, Option.isSome_iff_ne_none, ne_eq,
      Table.get?_eq_none_iff, not_not]
    rfl
  rw [hkeys]
  unfold hasMain
  constructor
  · intro hmain
    split at hmain
    next sig hsig =>
      -- a declared host function called `main` is external and does not count
      rcases (c.signed.get?_iff _ _).mp (c.widens.functions hsig) with
        ⟨d, -, hd⟩ | ⟨f, hf, hname, -⟩
      · simp only [hostSymbol, Prod.mk.injEq, Symbol.function.injEq] at hd
        rw [← hd.2] at hmain
        cases hmain
      · exact ⟨f, hf, hname.symm⟩
    · cases hmain
  · rintro ⟨f, hf, hname⟩
    obtain ⟨e, hnames⟩ := c.signed.named f hf
    obtain ⟨hkey, params, -, hsym⟩ := id hnames
    have hget := c.widens.keep ((c.signed.get?_iff _ _).mpr (.inr ⟨f, hf, hnames⟩))
    rw [hkey, hname, hsym] at hget
    have hget' : c.progress.scope.get? "main" =
        some (.function ⟨params, f.ret, false, false⟩) := hget
    rw [hget']
    rfl

theorem size_stub (c : Compilation hosts program image) :
    (stub c.progress.scope).size = image.stubSize := by
  unfold stub Image.stubSize
  by_cases hmain : hasMain c.progress.scope = true
  · rw [if_pos hmain, if_pos (c.hasMain_iff.mp hmain)]
    rfl
  · rw [if_neg hmain, if_neg fun h => hmain (c.hasMain_iff.mpr h)]
    rfl

theorem size_draft_pos (d : Definition) : 0 < d.draft.size := by
  simp [Definition.draft, functionCode]

/-- The functions lie side by side behind the first instructions. -/
theorem tiles (c : Compilation hosts program image) :
    Tiles image.stubSize image.symbols.code.entries image.code.size := by
  have hpos : ∀ f ∈ c.definitions.map Definition.function, 0 < f.code.size := by
    intro f hf
    obtain ⟨d, hd, rfl⟩ := List.mem_map.mp hf
    have hsize : d.function.code.size = d.draft.size := (c.compiled hd).size_code
    rw [hsize]
    exact size_draft_pos d
  have htiles := @tiles_codeEntries (stub c.progress.scope).size _ hpos
  have hend : image.code.size = (stub c.progress.scope).size +
      Code.size ((c.definitions.map Definition.function).flatMap (·.code)) := by
    rw [c.size_code, c.programCode_eq, Code.size_append, Code.size_append]
    rfl
  rwa [← c.entries_code, c.size_stub, ← c.size_stub, ← hend, c.size_stub] at htiles

/-- A function that is called has an entry in the symbol map. -/
theorem entry_of_calls (c : Compilation hosts program image) {l : String} {argc : Nat}
    (h : c.setting.Calls argc (.label l)) :
    ∃ e, image.symbols.code.get? l = some e ∧ c.labels.get? l = some e.addr ∧ e.argc = argc := by
  obtain ⟨g, hg, hlabel, rfl, hhead⟩ := h
  obtain ⟨d, hd, hgd, hmem⟩ := mem_codeEntries_of_routine (fun d hd => c.compiled hd) hg
  rw [hgd] at hhead
  -- the code of a function starts with its label
  obtain rfl : d.source.name = l := by simpa [Definition.routine, Definition.draft, functionCode]
    using hhead
  refine ⟨d.entryAt g.entry, ?_, hlabel, ?_⟩
  · rwa [Table.get?_eq_some_iff, c.entries_code]
  · have hargc : g.argc = d.argc := by rw [hgd]; rfl
    rw [hargc]
    exact (c.compiled hd).belowLink_finish

/-- A linked call of a function enters the code that the symbol map has for it. -/
theorem enters_of_calls (c : Compilation hosts program image) (haddr : image.Addressable)
    {j : Instr} {l : String} {argc pc : Nat} {frame : FrameLayout} {n : Int64}
    (h : c.setting.Calls argc (.label l)) (hop : j.op = .call)
    (hdest : j.dest = some ((Operand.label l).settle c.labels frame .call pc))
    (hsrc : j.src = some (.imm (.int n))) (hn : n.toInt = argc) :
    ∃ e, image.symbols.code.get? l = some e ∧ j.Enters e.addr e.argc := by
  obtain ⟨e, he, hlabel, rfl⟩ := c.entry_of_calls h
  refine ⟨e, he, hop, ?_, n, hsrc, hn⟩
  have hle : e.addr ≤ image.code.size := by
    have hbounds := (c.tiles.bounds (Table.get?_eq_some_iff.mp he)).2
    exact (Nat.le_add_right _ _).trans hbounds
  rw [Operand.settle, hlabel] at hdest
  exact ⟨_, hdest, toInt_labelTarget (by decide) haddr hle⟩

/-- The first instructions: a call of `main`, if there is one, and a jump to the end. -/
theorem stub_cases (c : Compilation hosts program image) (haddr : image.Addressable) {pc : Nat}
    (hpc : pc < image.stubSize) :
    ∃ j : Instr, image.code[pc]? = some j ∧
      ((pc + 1 = image.stubSize ∧ j.op = .jmp ∧ j.src = none ∧
        ∃ t : Int64, j.dest = some (.imm (.int t)) ∧ t.toInt = image.code.size) ∨
      (pc = 0 ∧ j.comment = some "main" ∧
        ∃ e, image.symbols.code.get? "main" = some e ∧ j.Enters e.addr e.argc)) := by
  have hplaced := c.placed_stub
  -- the last instruction of the stub is the same whether or not `main` is called
  have hjump {addr : Nat}
      (h : Placed c.setting.program .empty addr (Code.ofInstrs [.jmp (.label haltLabel)])) :
      ∃ j : Instr, image.code[addr]? = some j ∧ j.op = .jmp ∧ j.src = none ∧
        ∃ t : Int64, j.dest = some (.imm (.int t)) ∧ t.toInt = image.code.size := by
    obtain ⟨j, hj, hop, hd, hs, -⟩ := exists_of_placed h.1
    have hlabel : c.setting.program.labels.get? haltLabel = some image.code.size := c.label_halt
    simp only [Instr.jmp, Instr.unary, Option.map_some, Option.map_none, Operand.settle, hlabel]
      at hop hd hs
    exact ⟨j, hj, hop, hs, _, hd, toInt_labelTarget (by decide) haddr le_rfl⟩
  rw [← c.size_stub] at hpc ⊢
  unfold stub at hplaced hpc ⊢
  split at hplaced
  next hmain =>
    rw [if_pos hmain] at hpc ⊢
    obtain ⟨hcall, hlast⟩ := hplaced
    obtain rfl | rfl : pc = 0 ∨ pc = 1 := by
      change pc < 2 at hpc
      omega
    · unfold hasMain at hmain
      split at hmain
      next sig hsig =>
        have hext : sig.external = false := by simpa using hmain
        obtain ⟨j, hj, hop, hd, hs, hcomment⟩ := exists_of_placed hcall
        obtain ⟨-, hcalls⟩ := c.calls hsig hext
        rw [c.params_main hsig hext] at hcalls
        exact ⟨j, hj, .inr ⟨rfl, hcomment, c.enters_of_calls haddr hcalls hop hd hs rfl⟩⟩
      · cases hmain
    · obtain ⟨j, hj, hjmp⟩ := hjump hlast
      exact ⟨j, hj, .inl ⟨rfl, hjmp⟩⟩
  next hmain =>
    rw [if_neg hmain] at hpc ⊢
    obtain rfl : pc = 0 := by
      change pc < 1 at hpc
      omega
    obtain ⟨j, hj, hjmp⟩ := hjump hplaced
    exact ⟨j, hj, .inl ⟨rfl, hjmp⟩⟩

/-- An instruction of the image is one of the first ones or comes from one that keeps the discipline
of its function. -/
theorem instr_cases (c : Compilation hosts program image) (haddr : image.Addressable) {pc : Nat}
    {j : Instr} (hj : image.code[pc]? = some j) :
    pc < image.stubSize ∨ ∃ r ∈ c.setting.routines, r.Holds pc ∧ ∃ i : Instr,
      c.setting.Admits r (r.height pc) (r.slots pc) pc i ∧ j.op = i.op ∧ j.comment = i.comment ∧
      j.dest = i.dest.map (Operand.settle c.labels r.frame i.op pc) ∧
      j.src = i.src.map (Operand.settle c.labels r.frame i.op pc) := by
  by_cases hpc : pc < image.stubSize
  · exact .inl hpc
  · obtain ⟨hlt, -⟩ := Array.getElem?_eq_some_iff.mp hj
    rw [← c.size_stub] at hpc
    obtain ⟨r, hr, hholds⟩ := c.exists_holds (by omega) hlt
    obtain ⟨i, hi, hadm, -⟩ := c.runs haddr hr hholds
    obtain ⟨j', hj', hop, hd, hs, hcomment⟩ := exists_of_placed hi
    cases hj.symm.trans hj'
    exact .inr ⟨r, hr, hholds, i, hadm, hop, hcomment, hd, hs⟩

/-- A function ends with a return. -/
theorem last_instr (c : Compilation hosts program image) {name : String} {e : CodeEntry}
    (he : image.symbols.code.get? name = some e) :
    ∃ i : Instr, image.code[e.addr + (e.size - 1)]? = some i ∧ i.op = .ret := by
  obtain ⟨d, -, -, hentry, hr⟩ := c.routine_of_mem_entries (Table.get?_eq_some_iff.mp he)
  have hplaced := (c.placed hr).1
  simp only [Definition.routine, Definition.draft, functionCode, placed_append] at hplaced
  obtain ⟨i, hi, hop, -⟩ := exists_of_placed hplaced.2.1
  have hlast : e.size - 1 = Code.size ([.label d.source.name] ++ d.body) := by
    rw [hentry]
    simp [Definition.entryAt, Definition.draft, functionCode]
  exact ⟨i, by rw [hlast]; exact hi, hop⟩

/-- **The symbol map of a compiled program describes its code.** -/
theorem mapped (c : Compilation hosts program image) (haddr : image.Addressable) :
    image.Mapped where
  tiles := c.tiles
  covered := by
    intro pc hlow hhigh
    obtain ⟨⟨name, e⟩, hmem, hcovers⟩ := c.tiles.exists_covers hlow hhigh
    refine ⟨name, e, (Symbols.functionAt?_eq_some_iff c.tiles).mpr
      ⟨Table.get?_eq_some_iff.mpr hmem, hcovers⟩, fun name' e' => ?_⟩
    rw [Table.get?_eq_some_iff]
    constructor
    · rintro ⟨hmem', hcovers'⟩
      exact c.tiles.covers_unique hmem' hmem hcovers' hcovers
    · rintro ⟨⟩
      exact ⟨hmem, hcovers⟩
  outside := by
    intro pc hpc
    rw [Option.eq_none_iff_forall_ne_some]
    rintro ⟨name, e⟩ hfound
    obtain ⟨he, hcovers⟩ := (Symbols.functionAt?_eq_some_iff c.tiles).mp hfound
    obtain ⟨hlow, hhigh⟩ := c.tiles.bounds (Table.get?_eq_some_iff.mp he)
    simp only [CodeEntry.covers, Bool.and_eq_true, decide_eq_true_eq] at hcovers hlow hhigh
    omega
  ends := fun _ _ he => c.last_instr he
  halts := by
    have hpos : 0 < image.stubSize := by
      unfold Image.stubSize
      split <;> decide
    obtain ⟨j, hj, ⟨-, hop, hsrc, t, hdest, ht⟩ | ⟨hzero, -, e, he, henters⟩⟩ :=
      c.stub_cases haddr (show image.stubSize - 1 < image.stubSize by omega)
    · exact ⟨j, t, hj, hop, hdest, hsrc, ht⟩
    · -- with a `main` there are two instructions, and the jump is the second one
      have htwo : image.stubSize = 2 := by simp [Image.stubSize, Table.contains, he]
      omega
  calls := by
    intro pc j hj hop hhost
    rcases c.instr_cases haddr hj with hstub | ⟨r, hr, -, i, hadm, hop', hcomment, hd, hs⟩
    · obtain ⟨j', hj', ⟨-, hop', -⟩ | ⟨-, hcomment, e, he, henters⟩⟩ := c.stub_cases haddr hstub
      · cases hj.symm.trans hj'
        cases hop.symm.trans hop'
      · cases hj.symm.trans hj'
        exact ⟨"main", e, hcomment, he, henters⟩
    · rw [hop] at hop'
      obtain ⟨t, n, argc, hdest, hsrc, hn, hcalls, hname⟩ := Setting.admits_of_call hadm hop'.symm
      rw [hdest, ← hop'] at hd
      rw [hsrc] at hs
      cases t with
      | label l =>
        obtain ⟨e, he, henters⟩ := c.enters_of_calls haddr hcalls hop hd hs hn
        exact ⟨l, e, hcomment.trans (hname l rfl), he, henters⟩
      | host name => exact absurd hd (hhost name)
      | _ => exact hcalls.elim
  jumps := by
    intro pc j hj hop
    rcases c.instr_cases haddr hj with hstub | ⟨r, hr, hpc, i, hadm, hop', -, hd, -⟩
    · obtain ⟨j', hj', ⟨-, hop', -⟩ | ⟨-, -, e, -, henters⟩⟩ := c.stub_cases haddr hstub
      · cases hj.symm.trans hj'
        cases hop.symm.trans hop'
      · cases hj.symm.trans hj'
        cases hop.symm.trans henters.op
    · rw [hop] at hop'
      obtain ⟨d, -, hfound, hrd⟩ := c.functionAt?_of_holds hr hpc
      have hinside {target : Nat} (ht : r.Holds target) :
          ((d.entryAt r.entry).addr : Int) ≤ target ∧
            (target : Int) < (d.entryAt r.entry).addr + (d.entryAt r.entry).size := by
        have hsize : r.code.size = d.draft.size := by rw [hrd]; rfl
        obtain ⟨hlow, hhigh⟩ := ht
        rw [hsize] at hhigh
        exact ⟨Int.ofNat_le.mpr hlow, Int.ofNat_lt.mpr hhigh⟩
      rcases Setting.admits_of_rjmp hadm hop'.symm with ⟨l, target, hdest, hl, ht⟩ | ⟨hdest, ht⟩
      · rw [hdest, ← hop', Option.map_some, Operand.settle] at hd
        have hl' : c.labels.get? l = some target := hl
        rw [hl'] at hd
        refine ⟨_, d.source.name, d.entryAt r.entry, hd, hfound, ?_⟩
        have hv := c.valid haddr
        rw [toInt_labelTarget_rjmp haddr (hv.lt_size hr hpc) (hv.lt_size hr ht).le]
        exact hinside ht
      · rw [hdest] at hd
        exact ⟨2, d.source.name, d.entryAt r.entry, hd, hfound, hinside ht⟩
  frames := by
    intro pc j name e offset hj hfound ho
    obtain ⟨d, -, -, he, hr, hpc⟩ := c.routine_of_functionAt? hfound
    rcases c.instr_cases haddr hj with hstub | ⟨r, hr', hpc', i, hadm, -, -, hd, hs⟩
    · have hlow := (c.tiles.bounds (Table.get?_eq_some_iff.mp
        ((Symbols.functionAt?_eq_some_iff c.tiles).mp hfound).1)).1
      have hentry : e.addr ≤ pc := hpc.1
      simp only at hlow
      omega
    · obtain rfl := c.holds_unique hr hr' hpc hpc'
      -- the operand was one of the instruction before its variables got their places
      have horigin : ∃ o ∈ i.operands,
          o.settle c.labels (d.routine e.addr).frame i.op pc = .ptr ⟨.frame, offset, none⟩ := by
        rw [Instr.operands, hd, hs, Option.toList_map, Option.toList_map, ← List.map_append] at ho
        exact List.mem_map.mp ho
      obtain ⟨o, ho', hsettle⟩ := horigin
      obtain ⟨key, entry, hget, hoff⟩ :=
        Setting.exists_of_settle_frame (Setting.operands_of_admits hadm ho') hsettle
      rw [he]
      exact ⟨key, entry, hget, hoff⟩

end Compilation

end Compiler

/-- **The symbol map agrees with the linked code.** The entries are the functions of the program in
their order, and they describe the code as `Image.Mapped` says. -/
theorem symbol_map_agrees {hosts : List HostDecl} {program : Program} {image : Image}
    (hcompile : compile hosts program = .ok image) (haddr : image.Addressable) :
    image.symbols.code.keys = (functionsOf program).map Function.name ∧ image.Mapped := by
  obtain ⟨c, -⟩ := exists_compilation hcompile
  exact ⟨c.keys_code, c.mapped haddr⟩

/-- A program with a loop at the very end of a function and a call from it. -/
def countdown : Program :=
  ⟨[Build.func "less" [Build.param .int "n", Build.param .int "k"] .int
      [Build.ret (some (Build.binary .sub (Build.ident "n") (Build.ident "k")))],
    Build.func "main" [] .void
      [Build.var .int "i" (some (Build.lit (.int 3))),
        Build.whileLoop (Build.ident "i") (Build.expr (Build.assign (Build.ident "i")
          (Build.call "less" [Build.ident "i", Build.lit (.int 1)])))]]⟩

/-- The loop leaves to the return of its function, and the call passes two arguments. -/
theorem symbol_map_agrees_countdown :
    (imageOf [] countdown).symbols.code.keys = ["less", "main"] ∧
      (imageOf [] countdown).stubSize = 2 ∧ (imageOf [] countdown).Mapped := by
  have hcompile : compile [] countdown = .ok (imageOf [] countdown) :=
    compile_eq_ok_imageOf (by decide +kernel)
  have haddr : (imageOf [] countdown).Addressable := by
    unfold Image.Addressable
    decide +kernel
  obtain ⟨hkeys, hmapped⟩ := symbol_map_agrees hcompile haddr
  exact ⟨hkeys, by decide +kernel, hmapped⟩

end Stepwise
