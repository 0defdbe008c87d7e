import Stepwise.Diagnostic
import Stepwise.Table

/-!
# Assembly

Generated code is a list of lines: instructions, and labels that name the address of the next
instruction. Assembly drops the labels and puts addresses in their place. A relative jump takes the
distance from itself, every other instruction the address.

## Main definitions

* `Line`, `Code`: generated code
* `labelAddresses`: the address of each label
* `assemble`: code without labels
* `checkResolved`: no operand is left without a place
-/

namespace Stepwise

/-- A line of generated code. -/
inductive Line where
  | instr (i : Instr)
  | label (name : String)
  deriving DecidableEq, Repr

/-- Generated code. -/
abbrev Code := List Line

/-- The instruction of a line, if it is one. -/
def Line.instr? : Line → Option Instr
  | .instr i => some i
  | .label _ => none

namespace Code

/-- The instructions of the code, in order. -/
def instrs (code : Code) : List Instr := code.filterMap Line.instr?

/-- The number of instructions. -/
def size (code : Code) : Nat := code.instrs.length

/-- Code from instructions alone. -/
def ofInstrs (is : List Instr) : Code := is.map .instr

/-- The code with a place for every instruction that has none. -/
def located (loc : Location) (code : Code) : Code :=
  code.map fun
    | .instr i => .instr (i.located loc)
    | .label name => .label name

end Code

/-- Applies a partial function to the operands of an instruction, the destination first. -/
def Instr.mapOperands {ε : Type} (f : Operand → Except ε Operand) (i : Instr) : Except ε Instr := do
  let dest ← i.dest.mapM f
  let src ← i.src.mapM f
  return { i with dest := dest, src := src }

/-- Collects the addresses of labels, counting instructions from `addr`. -/
def collectLabels (addr : Nat) (labels : Table Nat) : Code → Except InternalError (Table Nat)
  | [] => .ok labels
  | .instr _ :: rest => collectLabels (addr + 1) labels rest
  | .label name :: rest =>
    if labels.contains name then .error (.labelRedefinition name)
    else collectLabels addr (labels.insert name addr) rest

/-- The address of each label: the number of instructions before it. -/
def labelAddresses (code : Code) : Except InternalError (Table Nat) := collectLabels 0 .empty code

/-- Puts an address in the place of a label, for an instruction at address `pc`. -/
def linkOperand (labels : Table Nat) (op : OpCode) (pc : Nat) (o : Operand) :
    Except InternalError Operand :=
  match o with
  | .label name =>
    match labels.get? name with
    | none => .error (.undefinedLabel name)
    | some addr =>
      let target : Int := if op = .rjmp then (addr : Int) - pc else addr
      .ok (.imm (.int (Int64.ofInt target)))
  | o => .ok o

/-- Puts addresses in the place of labels, for instructions from address `pc` on. -/
def linkFrom (labels : Table Nat) (pc : Nat) : List Instr → Except InternalError (List Instr)
  | [] => .ok []
  | i :: rest => do
    let i ← i.mapOperands (linkOperand labels i.op pc)
    let rest ← linkFrom labels (pc + 1) rest
    return i :: rest

/-- The instructions of the code, with addresses in the place of labels. -/
def assemble (code : Code) : Except InternalError (List Instr) := do
  let labels ← labelAddresses code
  linkFrom labels 0 code.instrs

/-- Checks that no operand is left without a place, from address `addr` on. -/
def checkResolvedFrom (addr : Nat) : List Instr → Except InternalError Unit
  | [] => .ok ()
  | i :: rest =>
    if i.operands.any Operand.isPending then .error (.pendingOperand addr i.text)
    else checkResolvedFrom (addr + 1) rest

/-- Checks that no operand is left without a place. -/
def checkResolved (is : List Instr) : Except InternalError Unit := checkResolvedFrom 0 is

end Stepwise
