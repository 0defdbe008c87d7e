import Mathlib
import Stepwise.Proofs.Placement
import Stepwise.Proofs.StmtCases

/-!
# The code of branches and loops

The code of a branch or a loop is that of its conditions and of the statements inside it, with
labels and jumps between them. Taken as a list of such strands, all forms are treated alike: what
holds of the code between the labels holds of the whole by induction on the list.

## Main definitions

* `Strand`: a label, a jump, or the code between labels and jumps
* `Strand.Each`: a property of all code between labels and jumps, at its address

## Main results

* `branchCode_eq`, `branchElseCode_eq`, `whileCode_eq`, `doCode_eq`, `forCode_eq`: the strands of
  each form
-/

namespace Stepwise.Lowering

open Snippet

/-- A strand of the code of a branch or a loop. -/
inductive Strand where
  | label (l : String)
  | jump (l : String)
  | part (c : Code)

namespace Strand

def code : Strand → Code
  | .label l => [.label l]
  | .jump l => [Snippet.jump l]
  | .part c => c

/-- The code of strands, one after the other. -/
def codes (ss : List Strand) : Code := ss.flatMap code

/-- Each part has a property at its address, when the first strand is at `addr`. -/
def Each (P : Nat → Code → Prop) : Nat → List Strand → Prop
  | _, [] => True
  | addr, .label _ :: ss => Each P addr ss
  | addr, .jump _ :: ss => Each P (addr + 1) ss
  | addr, .part c :: ss => P addr c ∧ Each P (addr + c.size) ss

variable {addr : Nat} {ss ts : List Strand}

@[simp]
theorem size_codes_nil : (codes []).size = 0 := rfl

@[simp]
theorem size_codes_cons (s : Strand) : (codes (s :: ss)).size = s.code.size + (codes ss).size :=
  Code.size_append _ _

@[simp]
theorem size_code_label (l : String) : (label l).code.size = 0 := rfl

@[simp]
theorem size_code_jump (l : String) : (jump l).code.size = 1 := rfl

@[simp]
theorem size_code_part (c : Code) : (part c).code.size = c.size := rfl

theorem each_append {P : Nat → Code → Prop} :
    Each P addr (ss ++ ts) ↔ Each P addr ss ∧ Each P (addr + (codes ss).size) ts := by
  induction ss generalizing addr with
  | nil => simp [Each]
  | cons s ss ih =>
    rw [size_codes_cons, ← Nat.add_assoc]
    cases s with
    | label l => exact ih
    | jump l => exact ih
    | part c => exact (and_congr_right fun _ => ih).trans and_assoc.symm

/-- A property of labels, jumps and parts that code passes on to its continuation holds of all the
code. -/
theorem codes_of_each {P : Code → Prop} (hnil : P []) (happ : ∀ {a b : Code}, P a → P b → P (a ++ b))
    (hlabel : ∀ l, P [.label l]) (hjump : ∀ l, P [Snippet.jump l])
    (h : Each (fun _ => P) addr ss) : P (codes ss) := by
  induction ss generalizing addr with
  | nil => exact hnil
  | cons s ss ih =>
    cases s with
    | label l => exact happ (hlabel l) (ih h)
    | jump l => exact happ (hjump l) (ih h)
    | part c => exact happ h.1 (ih h.2)

end Strand

/-! ## The forms -/

/-- The test of a loop with a header, with the jump that leaves the loop. -/
def testCode (exit : String) : Option Code → Code
  | some test => conditionCode test ++ [jumpIfZero exit]
  | none => []

@[simp]
theorem size_testCode (exit : String) (test : Code) :
    (testCode exit (some test)).size = test.size + 2 := by
  simp [testCode, conditionCode, jumpIfZero]

theorem branchCode_eq (done : String) (test consequent : Code) :
    branchCode done test consequent = Strand.codes
      [.part (testCode done (some test)), .part consequent, .label done] := by
  simp [branchCode, testCode, Strand.codes, Strand.code]

theorem branchElseCode_eq (done other : String) (test consequent alternate : Code) :
    branchElseCode done other test consequent alternate = Strand.codes
      [.part (testCode other (some test)), .part consequent, .jump done, .label other,
        .part alternate, .label done] := by
  simp [branchElseCode, testCode, Strand.codes, Strand.code]

theorem whileCode_eq (top exit : String) (test body : Code) :
    whileCode top exit test body = Strand.codes
      [.label top, .part (testCode exit (some test)), .part body, .jump top, .label exit] := by
  simp [whileCode, testCode, Strand.codes, Strand.code]

theorem doCode_eq (top next exit : String) (body test : Code) :
    doCode top next exit body test = Strand.codes
      [.label top, .part body, .label next, .part (testCode exit (some test)), .jump top,
        .label exit] := by
  simp [doCode, testCode, Strand.codes, Strand.code]

theorem forCode_eq (top next exit : String) (init : Code) (test : Option Code) (body update : Code) :
    forCode top next exit init test body update = Strand.codes
      [.part init, .label top, .part (testCode exit test), .part body, .label next, .part update,
        .jump top, .label exit] := by
  cases test <;> simp [forCode, testCode, Strand.codes, Strand.code]

end Stepwise.Lowering
