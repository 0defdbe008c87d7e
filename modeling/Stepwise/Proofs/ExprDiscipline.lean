import Mathlib
import Stepwise.Proofs.Discipline
import Stepwise.Proofs.Pieces

/-!
# The discipline of expressions

The code of an expression leaves one value on the stack, takes nothing off that it did not push,
and names only variables that are there. An expression lowered for its effect leaves nothing.

## Main results

* `leaves_of_lower`, `leaves_of_lowerEffect`: how many values are left
* `admitted_of_lower`, `admitted_of_lowerEffect`: every instruction keeps the discipline
-/

namespace Stepwise.Lowering

open Snippet

/-! ## How many values are left -/

/-- An action whose code leaves one value. Machine words bound the number of arguments of a call,
hence the bound on the size. -/
def LeavesOne (x : Lower (Code × Ty)) : Prop :=
  ∀ ⦃s c ty s'⦄, x s = .ok ((c, ty), s') → Code.size c < 2 ^ 63 → c.Leaves 1

section Leaves

variable {fn : String} {place : Operand → Prop} {called : String → Signature → Nat → Prop}
  {m n : Nat} {s s' : Supply} {c code : Code}

theorem leaves_callCode (name : String) (f : Signature) {argc : Nat} (h : argc < 2 ^ 63) :
    (callCode name f argc).Leaves (-argc) := by
  have hargc : (Int64.ofNat argc).toInt = argc := Int64.toInt_ofNat_of_lt h
  simp [Code.Leaves, callCode, hargc]

theorem leaves_applyCode {op : BinaryOp} (h : isLogical op = false) : (applyCode op).Leaves 1 := by
  cases op <;> first | exact ⟨rfl, rfl⟩ | cases h

theorem leaves_unaryCode (op : UnaryOp) (h : code.Leaves 1) : (unaryCode op code).Leaves 1 := by
  cases op with
  | neg | not => exact h.append (show Code.Leaves _ 0 from ⟨rfl, rfl⟩)
  | pos | inc | dec => simpa [unaryCode] using h

theorem Moves.counts {i : Instr} (h : Moves place s m i n) :
    i.rise = (n : Int) - m ∧ i.reserves = false := by
  cases h with
  | push | pop | step => simp
  | mov => exact ⟨(sub_self _).symm, rfl⟩

/-- **Code made of pieces leaves so many values** and reserves no slot. -/
theorem Pieced.leaves (h : Pieced fn place called m s c n s') (hsize : c.size < 2 ^ 63) :
    c.Leaves (n - m) := by
  have hone (m : Nat) : ((m + 1 : Nat) : Int) - m = 1 := by omega
  induction h with
  | nil => simp [Code.Leaves]
  | instr hi _ ih =>
    obtain ⟨hrise, hres⟩ := hi.counts
    obtain ⟨hrise', hres'⟩ := ih (Nat.lt_of_succ_lt hsize)
    simp [Code.Leaves, hrise, hres, hrise', hres']
  | append _ _ ih ih' =>
    rw [Code.size_append] at hsize
    simpa using (ih (by omega)).append (ih' (by omega))
  | located loc _ ih => exact Code.leaves_located.mpr (ih (by rwa [Code.size_located] at hsize))
  | cell _ _ ih => exact ih hsize
  | unary op _ ih =>
    unfold unaryCode at hsize
    rw [Code.size_append] at hsize
    rw [hone] at ih ⊢
    exact leaves_unaryCode op (ih (by omega))
  | binary hop _ _ ih ih' =>
    simp only [binaryCode, Code.size_append] at hsize
    obtain ⟨hrise, hres⟩ := ih (by omega)
    obtain ⟨hrise', hres'⟩ := ih' (by omega)
    obtain ⟨hrise'', hres''⟩ := leaves_applyCode hop
    simp [Code.Leaves, binaryCode, hrise, hres, hrise', hres', hrise'', hres'']
  | and _ _ ih ih' | or _ _ ih ih' =>
    simp only [andCode, orCode, Code.size_append] at hsize
    obtain ⟨hrise, hres⟩ := ih (by omega)
    obtain ⟨hrise', hres'⟩ := ih' (by omega)
    simp [Code.Leaves, andCode, orCode, popTest, truthCode, hrise, hres, hrise', hres']
  | @call _ argc _ _ _ name f hargs _ ih =>
    -- there is an instruction for each argument, so their number fits a word
    rw [Code.size_append] at hsize
    have hle := hargs.le_size
    have hargc : argc < 2 ^ 63 := by omega
    simpa using (ih (by omega)).append (leaves_callCode name f hargc)

/-- **The code of an expression leaves one value.** -/
theorem leaves_of_lower (fn : String) (scope : Scope) (e : Expr) :
    LeavesOne (lower fn scope e) := by
  intro s code ty s' h hsize
  simpa using (pieces_lower fn scope e h 0).leaves hsize

/-- **An expression lowered for its effect leaves nothing.** -/
theorem leaves_of_lowerEffect {scope : Scope} {e : Expr}
    (h : lowerEffect fn scope e s = .ok (code, s')) (hsize : code.size < 2 ^ 63) :
    code.Leaves 0 := by
  simpa using (pieced_of_lowerEffect (offers_any scope) (permits_any scope _) h 0).leaves hsize

theorem Stored.leaves {scope : Scope} {dest : Operand} {ty : Ty} {e e' : Expr}
    (h : Stored scope dest ty (lower fn scope e) s e' code s') (hsize : code.size < 2 ^ 63) :
    code.Leaves 0 := by
  simpa using (h.pieced (offers_any scope) trivial (pieces_lower fn scope e) 0).leaves hsize

theorem Valued.leaves {scope : Scope} {ty : Ty} {e e' : Expr}
    (h : Valued ty (lower fn scope e) s e' code s') (hsize : code.size < 2 ^ 63) :
    code.Leaves 1 := by
  simpa using (h.pieced (pieces_lower fn scope e) 0).leaves hsize

end Leaves

end Stepwise.Lowering

namespace Stepwise.Setting

open Snippet Lowering

/-! ## Names that mean something -/

variable {S : Setting} {f : Routine} {h : Int} {r addr limit : Nat} {scope : Scope}

/-- The meaning of a name is there: a variable has its slot, a local one below `limit`, and a
function of the program is one of its routines. -/
def Means (S : Setting) (f : Routine) (limit : Nat) (name : String) : Symbol → Prop
  | .variable ⟨_, _, _, _, .global offset⟩ => offset < S.globals.values.size
  | .variable ⟨_, _, _, _, .frame key⟩ =>
    ∃ e, f.frame.entries.get? key = some e ∧ -(f.argc : Int) ≤ e.offset ∧ e.offset < limit
  | .function sig => sig.external = false →
    sig.variadic = false ∧ S.Calls sig.params.length (.label name)

/-- Every name in scope has a meaning that is there. -/
def Fits (S : Setting) (f : Routine) (limit : Nat) (scope : Scope) : Prop :=
  ∀ ⦃name symbol⦄, scope.lookup? name = some symbol → S.Means f limit name symbol

theorem Means.mono {limit' : Nat} {name : String} {symbol : Symbol}
    (hm : S.Means f limit name symbol) (hl : limit ≤ limit') : S.Means f limit' name symbol := by
  obtain ⟨_, _, _, _, offset | key⟩ | sig := symbol
  · exact hm
  · obtain ⟨e, he, hlow, hhigh⟩ := hm
    exact ⟨e, he, hlow, by omega⟩
  · exact hm

theorem Fits.mono {limit' : Nat} (hs : S.Fits f limit scope) (hl : limit ≤ limit') :
    S.Fits f limit' scope := fun _ _ hsym => (hs hsym).mono hl

/-- A variable in scope can be read and written, and so can its elements. -/
theorem Fits.writes (hs : S.Fits f limit scope) (hlim : limit ≤ h) {name : String} {v : Variable}
    (hv : scope.lookup? name = some (.variable v)) :
    S.Writes f h (v.slot.operand none) ∧ S.Writes f h (v.slot.operand (some .ix)) := by
  have hm := hs hv
  obtain ⟨_, _, _, _, offset | key⟩ := v
  · have hlt : (offset : Int) < S.globals.values.size := Int.ofNat_lt.mpr hm
    exact ⟨⟨⟨Int.natCast_nonneg offset, hlt⟩, by simp [Slot.operand]⟩, ⟨rfl, by simp [Slot.operand]⟩⟩
  · obtain ⟨e, he, hlow, hhigh⟩ := hm
    exact ⟨⟨⟨e, he, hlow, by omega⟩, by simp [Slot.operand]⟩, ⟨⟨rfl, e, he⟩, by simp [Slot.operand]⟩⟩

/-- The scratch cell of a type is there. -/
theorem writes_cellOperand {names : Table Symbol} (hS : S.globals.Sound names) {s : Supply} {ty : Ty}
    (hx : (s.withCell ty).globals.Extends S.globals) :
    S.Writes f h (cellOperand s.globals ty) := by
  have hlook := hx.casts (GlobalLayout.lookup_castCell s.globals ty)
  have hlt := (hS.cell (GlobalLayout.mem_casts_of_lookup hlook)).lt le_rfl (Nat.lt_succ_self _)
  exact ⟨⟨Int.natCast_nonneg _, Int.ofNat_lt.mpr hlt⟩, by simp [cellOperand, Slot.operand]⟩

/-! ## Every instruction keeps the discipline -/

/-- Code that was lowered with a supply that grew into that of the program stands at an address
where the slots below `limit` are reserved. -/
structure Stands (S : Setting) (f : Routine) (limit : Nat) (s : Supply) (h : Int) (r addr : Nat)
    (c : Code) : Prop where
  grown : s.globals.Extends S.globals
  limit_le : limit ≤ r
  le : (r : Int) ≤ h
  laid : Laid S.program f h r addr c

/-- An action whose code keeps the discipline wherever it stands. -/
def AdmitsAll (S : Setting) (f : Routine) (limit : Nat) (x : Lower (Code × Ty)) : Prop :=
  ∀ ⦃s c ty s' h r addr⦄, x s = .ok ((c, ty), s') → S.Stands f limit s' h r addr c →
    S.Admitted f h r addr c

theorem admitted_zeroTest {zero : Bool} (hl : Laid S.program f h r addr (zeroTest zero)) :
    S.Admitted f h r addr (zeroTest zero) := by
  simp only [zeroTest, Code.ofInstrs_cons, Code.ofInstrs_nil, laid_cons_instr] at hl
  obtain ⟨-, -, -, -, -, -, hskip, -⟩ := hl
  simp only [zeroTest, r2, Code.ofInstrs_cons, Code.ofInstrs_nil, admitted_cons_instr, admits_ldi,
    admits_skip, admits_push, reads_reg, admitted_nil, true_and, and_true]
  simpa using hskip

/-- Arithmetic on registers is always possible. -/
theorem admits_alu {op : OpCode} {x y : Reg}
    (hop : op ∈ [OpCode.add, .sub, .mul, .div, .and, .or, .xor, .cp]) :
    S.Admits f h r addr (.binary op (.reg x) (.reg y)) := by
  fin_cases hop <;> exact ⟨writes_reg x, reads_reg y⟩

theorem admitted_aluCode {op : OpCode}
    (hop : op ∈ [OpCode.add, .sub, .mul, .div, .and, .or, .xor, .cp]) :
    S.Admitted f h r addr (aluCode op) := by
  simp only [aluCode, r0, r1, Code.ofInstrs_cons, Code.ofInstrs_nil, admitted_cons_instr,
    admits_push, reads_reg, admitted_nil, and_true]
  exact admits_alu hop

theorem admitted_comparisonCode {shift : List Instr} {zero : Bool}
    (hshift : ∀ h r addr, S.Admitted f h r addr (Code.ofInstrs shift))
    (hl : Laid S.program f h r addr (comparisonCode shift zero)) :
    S.Admitted f h r addr (comparisonCode shift zero) := by
  rw [comparisonCode, laid_append] at hl
  rw [comparisonCode, admitted_append]
  exact ⟨⟨admits_alu (by simp), hshift _ _ _⟩, admitted_zeroTest hl.2⟩

theorem admitted_applyCode {op : BinaryOp} (hl : Laid S.program f h r addr (applyCode op)) :
    S.Admitted f h r addr (applyCode op) := by
  have hshift (op : UnaryOp) (h : Int) (r addr : Nat) :
      S.Admitted f h r addr (Code.ofInstrs [.unary (stepCode op) r0]) := by
    simp [r0]
  cases op with
  | add | sub | mul | div | bitAnd | bitOr | bitXor => exact admitted_aluCode (by simp)
  | mod =>
    exact ⟨⟨writes_reg _, reads_reg _⟩, admits_alu (by simp), admits_alu (by simp),
      admits_alu (by simp), admits_push.mpr (reads_reg _), trivial⟩
  | eq | ne => exact admitted_comparisonCode (fun _ _ _ => trivial) hl
  | lt | ge => exact admitted_comparisonCode (hshift .inc) hl
  | gt | le => exact admitted_comparisonCode (hshift .dec) hl
  | and | or => trivial

theorem admitted_binaryCode {op : BinaryOp} {left right : Code} (hleft : left.Leaves 1)
    (hright : right.Leaves 1) (hr : (r : Int) ≤ h)
    (hl : Laid S.program f h r addr (binaryCode op left right))
    (ihl : Laid S.program f h r addr left → S.Admitted f h r addr left)
    (ihr : Laid S.program f (h + 1) r (addr + left.size) right →
      S.Admitted f (h + 1) r (addr + left.size) right) :
    S.Admitted f h r addr (binaryCode op left right) := by
  obtain ⟨hlrise, hlres⟩ := hleft
  obtain ⟨hrrise, hrres⟩ := hright
  rw [binaryCode, laid_append] at hl
  rw [binaryCode, admitted_append]
  refine ⟨?_, admitted_applyCode hl.2⟩
  simp only [laid_append, hlrise, hlres] at hl
  simp [r0, r1, hlrise, hlres, hrrise, hrres, ihl hl.1.1.1, ihr hl.1.1.2]
  omega

theorem admitted_unaryCode {op : UnaryOp} {code : Code} (hcode : code.Leaves 1) (hr : (r : Int) ≤ h)
    (hl : Laid S.program f h r addr (unaryCode op code)) (ih : S.Admitted f h r addr code) :
    S.Admitted f h r addr (unaryCode op code) := by
  cases op with
  | neg =>
    simp only [unaryCode, admitted_append, hcode.1, hcode.2]
    refine ⟨ih, ?_, admits_ldi, admits_alu (by simp), ?_, trivial⟩
    · rw [r1, admits_pop]
      omega
    · exact admits_push.mpr (reads_reg _)
  | not =>
    simp only [unaryCode, laid_append, admitted_append, hcode.1, hcode.2] at hl ⊢
    refine ⟨ih, ⟨?_, trivial⟩, admitted_zeroTest hl.2.2⟩
    rw [r0, admits_pop]
    omega
  | pos | inc | dec => simpa [unaryCode] using ih

/-- A label that is laid can be jumped to from places with the same counts. -/
theorem lands_of_laid {l : String} {c : Code} (hl : Laid S.program f h r addr (.label l :: c)) :
    S.Lands f h r l := ⟨addr, hl.1, hl.2.start⟩

variable {l : TruthLabels}

theorem lands_of_truthCode (hl : Laid S.program f h r addr (truthCode l)) :
    S.Lands f h r l.yes ∧ S.Lands f h r l.no ∧ S.Lands f h r l.done := by
  simp only [truthCode, laid_cons_label, laid_cons_instr, Instr.rise_ldi, Instr.rise_rjmp,
    Instr.reserves_ldi, Instr.reserves_rjmp, Bool.toNat_false, Int.add_zero, Nat.add_zero] at hl
  obtain ⟨hyes, hat, -, -, -, hno, hat', -, hdone, hat'', -⟩ := hl
  exact ⟨⟨_, hyes, hat⟩, ⟨_, hno, hat'⟩, ⟨_, hdone, hat''⟩⟩

theorem admitted_truthCode (hl : Laid S.program f h r addr (truthCode l)) :
    S.Admitted f h r addr (truthCode l) := by
  simp [truthCode, r2, (lands_of_truthCode hl).2.2]

theorem admitted_andCode {left right : Code} (hleft : left.Leaves 1) (hright : right.Leaves 1)
    (hr : (r : Int) ≤ h) (hl : Laid S.program f h r addr (andCode l left right))
    (ihl : Laid S.program f h r addr left → S.Admitted f h r addr left)
    (ihr : Laid S.program f h r (addr + left.size + 2) right →
      S.Admitted f h r (addr + left.size + 2) right) :
    S.Admitted f h r addr (andCode l left right) := by
  obtain ⟨hlrise, hlres⟩ := hleft
  obtain ⟨hrrise, hrres⟩ := hright
  have htruth : Laid S.program f h r (addr + (left.size + (right.size + 4))) (truthCode l) := by
    rw [andCode, laid_append] at hl
    simpa [popTest, hlrise, hlres, hrrise, hrres, Nat.add_assoc] using hl.2
  obtain ⟨-, hno, -⟩ := lands_of_truthCode htruth
  have hbranches : S.Admitted f h r addr (left ++ popTest l.no ++ right ++ popTest l.no) := by
    have hright : Laid S.program f h r (addr + left.size + 2) right := by
      simp only [andCode, laid_append] at hl
      simpa [popTest, hlrise, hlres, Nat.add_assoc] using hl.1.1.2
    simp only [andCode, laid_append] at hl
    simp [popTest, r0, hlrise, hlres, hrrise, hrres, ihl hl.1.1.1.1, hno, hr]
    exact ihr hright
  rw [andCode, admitted_append]
  refine ⟨hbranches, ?_⟩
  simpa [popTest, hlrise, hlres, hrrise, hrres, Nat.add_assoc] using admitted_truthCode htruth

theorem admitted_orCode {rhs : String} {left right : Code} (hleft : left.Leaves 1)
    (hright : right.Leaves 1) (hr : (r : Int) ≤ h)
    (hl : Laid S.program f h r addr (orCode l rhs left right))
    (ihl : Laid S.program f h r addr left → S.Admitted f h r addr left)
    (ihr : Laid S.program f h r (addr + left.size + 3) right →
      S.Admitted f h r (addr + left.size + 3) right) :
    S.Admitted f h r addr (orCode l rhs left right) := by
  obtain ⟨hlrise, hlres⟩ := hleft
  obtain ⟨hrrise, hrres⟩ := hright
  have htruth : Laid S.program f h r (addr + (left.size + (right.size + 5))) (truthCode l) := by
    rw [orCode, laid_append] at hl
    simpa [popTest, hlrise, hlres, hrrise, hrres, Nat.add_assoc] using hl.2
  have hrhs : S.Lands f h r rhs := by
    simp only [orCode, laid_append, laid_cons_instr, laid_cons_label] at hl
    simpa [popTest, hlrise, hlres] using lands_of_laid hl.1.1.1.2.2.2
  obtain ⟨hyes, hno, -⟩ := lands_of_truthCode htruth
  have hbranches : S.Admitted f h r addr (left ++ popTest rhs ++
      [.instr (.rjmp (.label l.yes)), .label rhs] ++ right ++ popTest l.no) := by
    have hright : Laid S.program f h r (addr + left.size + 3) right := by
      simp only [orCode, laid_append] at hl
      simpa [popTest, hlrise, hlres, Nat.add_assoc] using hl.1.1.2
    simp only [orCode, laid_append] at hl
    simp [popTest, r0, hlrise, hlres, hrrise, hrres, ihl hl.1.1.1.1.1, hyes, hno, hrhs, hr]
    exact ihr hright
  rw [orCode, admitted_append]
  refine ⟨hbranches, ?_⟩
  simpa [popTest, hlrise, hlres, hrrise, hrres, Nat.add_assoc] using admitted_truthCode htruth

/-! ## Pieces keep the discipline -/

section Pieces

variable {names : Table Symbol} {fn : String} {m n : Nat} {s s' : Supply} {c : Code}

/-- What a call needs to keep the discipline. -/
def Callable (S : Setting) (name : String) (sig : Signature) (argc : Nat) : Prop :=
  S.Calls argc (callTarget name sig)

theorem Fits.offers (hs : S.Fits f limit scope) (hlim : limit ≤ r) :
    Offers (S.Writes f r) scope := fun _ _ hv => hs.writes (Int.ofNat_le.mpr hlim) hv

theorem Fits.permits (hs : S.Fits f limit scope) (names : List String) :
    Permits S.Callable scope names := by
  intro name sig argc _ hlook htakes
  unfold Callable callTarget
  split
  · trivial
  next hext =>
    obtain ⟨hvar, g, hg, hl, hp, hhead⟩ := hs hlook (by simpa using hext)
    have : argc = sig.params.length := le_antisymm (htakes.2 hvar) htakes.1
    exact ⟨g, hg, hl, by rw [hp, this], hhead⟩

theorem writes_of_storable (hS : S.globals.Sound names) {o : Operand}
    (ho : Storable (S.Writes f r) s o) (hx : s.globals.Extends S.globals) (hle : (r : Int) ≤ h) :
    S.Writes f h o := by
  cases ho with
  | place ho => exact ho.mono hle
  | cell => exact writes_cellOperand hS hx

theorem admits_of_moves (hS : S.globals.Sound names) {i : Instr}
    (hi : Moves (S.Writes f r) s m i n) (hx : s.globals.Extends S.globals)
    (hle : (r : Int) + m ≤ h) : S.Admits f h r addr i := by
  have hwrites {o : Operand} (ho : Storable (S.Writes f r) s o) : S.Writes f h o :=
    writes_of_storable hS ho hx (by omega)
  have hreads {o : Operand} (ho : Source (S.Writes f r) s o) : S.Reads f h o := by
    cases ho with
    | imm => exact reads_imm _
    | reg => exact reads_reg _
    | stored ho => exact (hwrites ho).1
  cases hi with
  | push ho => exact admits_push.mpr (hreads ho)
  | pop =>
    rw [admits_pop]
    push_cast at hle
    omega
  | mov _ ho ho' => exact ⟨hwrites ho, hreads ho'⟩
  | step op ho => exact admits_step.mpr (hwrites ho)

theorem admitted_callCode {name : String} {sig : Signature} {argc : Nat}
    (hcalls : S.Callable name sig argc) (hargc : argc < 2 ^ 63) (hr : (r : Int) + argc ≤ h) :
    S.Admitted f h r addr (callCode name sig argc) := by
  refine ⟨⟨argc, Int64.toInt_ofNat_of_lt hargc, hr, hcalls, fun l hl => ?_⟩, trivial⟩
  unfold callTarget at hl
  split at hl
  · cases hl
  · cases hl
    rfl

/-- **Code made of pieces keeps the discipline**, where the values that it starts with lie above the
slots. -/
theorem admitted_of_pieced (hS : S.globals.Sound names) (hsize : f.code.size < 2 ^ 63)
    (hcode : Pieced fn (S.Writes f r) S.Callable m s c n s') (hgrown : s'.globals.Extends S.globals)
    (hle : (r : Int) + m ≤ h) (hlaid : Laid S.program f h r addr c) : S.Admitted f h r addr c := by
  have hone (m : Nat) : ((m + 1 : Nat) : Int) - m = 1 := by omega
  -- what a piece leaves is known as soon as it is laid
  have hleaves {m n : Nat} {s s' : Supply} {c : Code} {h : Int} {addr : Nat}
      (hcode : Pieced fn (S.Writes f r) S.Callable m s c n s')
      (hlaid : Laid S.program f h r addr c) : c.Leaves (n - m) :=
    hcode.leaves (hlaid.size_lt.trans hsize)
  induction hcode generalizing h addr with
  | nil => trivial
  | instr hi hrest ih =>
    obtain ⟨hrise, hres⟩ := hi.counts
    obtain ⟨-, -, hlaid⟩ := hlaid
    rw [hres] at hlaid
    refine ⟨admits_of_moves hS hi (hrest.draws.extends.trans hgrown) hle, ?_⟩
    rw [hres]
    exact ih hgrown (by omega) hlaid
  | append hc hd ih ih' =>
    obtain ⟨hlaid₁, hlaid₂⟩ := hlaid.split (hleaves hc (laid_append.mp hlaid).1)
    rw [admitted_append_of_leaves (hleaves hc hlaid₁)]
    exact ⟨ih (hd.draws.extends.trans hgrown) hle hlaid₁, ih' hgrown (by omega) hlaid₂⟩
  | located loc _ ih => exact admitted_located.mpr (ih hgrown hle (laid_located.mp hlaid))
  | cell _ _ ih => exact ih hgrown hle hlaid
  | unary op hc ih =>
    have hlaid' := (laid_append.mp (show Laid _ _ _ _ _ (_ ++ _) from hlaid)).1
    exact admitted_unaryCode (hone _ ▸ hleaves hc hlaid') (by omega) hlaid (ih hgrown hle hlaid')
  | binary _ hc hd ih ih' =>
    have hsz := hlaid.size_lt
    simp only [binaryCode, Code.size_append] at hsz
    exact admitted_binaryCode (hone _ ▸ hc.leaves (by omega)) (hone _ ▸ hd.leaves (by omega))
      (by omega) hlaid (ih (hd.draws.extends.trans hgrown) hle) (ih' hgrown (by omega))
  | and hc hd ih ih' =>
    have hsz := hlaid.size_lt
    simp only [andCode, Code.size_append] at hsz
    exact admitted_andCode (hone _ ▸ hc.leaves (by omega)) (hone _ ▸ hd.leaves (by omega))
      (by omega) hlaid (ih (hd.draws.extends.trans hgrown) hle) (ih' hgrown hle)
  | or hc hd ih ih' =>
    have hsz := hlaid.size_lt
    simp only [orCode, Code.size_append] at hsz
    exact admitted_orCode (hone _ ▸ hc.leaves (by omega)) (hone _ ▸ hd.leaves (by omega))
      (by omega) hlaid (ih (hd.draws.extends.trans hgrown) hle) (ih' hgrown hle)
  | call hargs hcall ih =>
    have hargs' := hleaves hargs (laid_append.mp hlaid).1
    have hle' := hargs.le_size
    have hsz := (laid_append.mp hlaid).1.size_lt
    rw [admitted_append_of_leaves hargs']
    refine ⟨ih hgrown hle (laid_append.mp hlaid).1, admitted_callCode hcall (by omega) ?_⟩
    push_cast
    omega

end Pieces

/-- **Every instruction of an expression keeps the discipline.** -/
theorem admitted_of_lower {names : Table Symbol} (hS : S.globals.Sound names)
    (hsize : f.code.size < 2 ^ 63) (hfit : S.Fits f limit scope) (fn : String) (e : Expr) :
    AdmitsAll S f limit (lower fn scope e) := by
  rintro s code ty s' h r addr hrun ⟨hgrown, hlimit, hle, hlaid⟩
  exact admitted_of_pieced hS hsize
    (pieced_of_lower (hfit.offers hlimit) (hfit.permits _) hrun 0) hgrown (by simpa using hle) hlaid

/-- **Every instruction of an expression lowered for its effect keeps the discipline.** -/
theorem admitted_of_lowerEffect {names : Table Symbol} (hS : S.globals.Sound names)
    (hsize : f.code.size < 2 ^ 63) (hfit : S.Fits f limit scope) {fn : String} {e : Expr}
    {s s' : Supply} {code : Code} (hrun : lowerEffect fn scope e s = .ok (code, s'))
    (hst : S.Stands f limit s' h r addr code) : S.Admitted f h r addr code := by
  obtain ⟨hgrown, hlimit, hle, hlaid⟩ := hst
  exact admitted_of_pieced hS hsize
    (pieced_of_lowerEffect (hfit.offers hlimit) (hfit.permits _) hrun 0) hgrown (by simpa using hle)
    hlaid

end Stepwise.Setting
