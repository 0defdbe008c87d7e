import Stepwise.Instruction.OpCode
import Stepwise.Instruction.Operand
import Stepwise.Text.Colour

/-!
# Instructions

An instruction is an operation with up to two operands, an optional remark and the optional place in
the program that it was generated from.

## Main definitions

* `Location`: a place in the program
* `Instr`: an instruction, with a constructor for each form that generated code uses
* `Instr.isWellFormed`: the operands fit the operation
* `Instr.text`, `Instr.coloured`: the written forms
-/

namespace Stepwise

/-- A place in the text of the program. -/
structure Location where
  line : Nat
  column : Nat
  deriving DecidableEq, Repr, Inhabited

/-- The written form of a place. -/
def Location.text (l : Location) : String := toString l.line ++ ":" ++ toString l.column

/-- The place of what has none. -/
def Location.unknown : Location := ⟨0, 0⟩

/-- An instruction. -/
structure Instr where
  op : OpCode
  dest : Option Operand
  src : Option Operand
  comment : Option String := none
  origin : Option Location := none
  deriving DecidableEq, Repr

namespace Instr

/-- An operation without operands. -/
def nullary (op : OpCode) : Instr where
  op := op
  dest := none
  src := none

/-- An operation on one operand. -/
def unary (op : OpCode) (dest : Operand) : Instr where
  op := op
  dest := some dest
  src := none

/-- An operation on two operands. -/
def binary (op : OpCode) (dest src : Operand) : Instr where
  op := op
  dest := some dest
  src := some src

/-- Pushes an operand. -/
def push (src : Operand) : Instr := unary .push src

/-- Pops into an operand. -/
def pop (dest : Operand) : Instr := unary .pop dest

/-- Copies an operand. -/
def mov (dest src : Operand) : Instr := binary .mov dest src

/-- Loads a constant into a register. -/
def ldi (dest : Reg) (value : Value) : Instr := binary .ldi (.reg dest) (.imm value)

/-- Jumps to an address. -/
def jmp (target : Operand) : Instr := unary .jmp target

/-- Jumps by a distance. -/
def rjmp (target : Operand) : Instr := unary .rjmp target

/-- Jumps by a distance if a register is zero. -/
def rjmpIfZero (target : Operand) (condition : Reg) : Instr :=
  binary .rjmp target (.reg condition)

/-- Calls a function with so many arguments. -/
def call (target : Operand) (argc : Nat) : Instr :=
  binary .call target (.imm (.int (Int64.ofNat argc)))

/-- Returns from a function. -/
def ret : Instr := nullary .ret

/-- The instruction with a remark. -/
def withComment (i : Instr) (comment : String) : Instr := { i with comment := some comment }

/-- The instruction with an origin. -/
def withOrigin (i : Instr) (origin : Location) : Instr := { i with origin := some origin }

/-- The instruction with an origin, unless it has one already. -/
def located (i : Instr) (origin : Location) : Instr :=
  match i.origin with
  | some _ => i
  | none => i.withOrigin origin

/-- The operands, the destination first. -/
def operands (i : Instr) : List Operand := i.dest.toList ++ i.src.toList

/-- Whether the number of operands fits the operation, and no second operand stands alone. -/
def isWellFormed (i : Instr) : Bool :=
  let count? : Option Nat :=
    match i.dest, i.src with
    | none, some _ => none
    | none, none => some 0
    | some _, none => some 1
    | some _, some _ => some 2
  match count? with
  | none => false
  | some n => i.op.arity.1 ≤ n && n ≤ i.op.arity.2

/-- The written form of an instruction. -/
def text (i : Instr) : String :=
  i.op.name ++ (match i.dest with | some d => " " ++ d.text | none => "") ++
    (match i.src with | some s => ", " ++ s.text | none => "")

end Instr

/-- The styles of an operand in a coloured listing. -/
def Operand.styles : Operand → List Text.Style
  | .imm _ => [.yellow]
  | .reg _ => [.blue]
  | .ptr _ => [.cyan]
  | .host _ => [.magenta]
  | .var _ _ | .label _ => [.red, .underline]

/-- The coloured form of an operand. -/
def Operand.coloured (o : Operand) : String := Text.paint o.styles o.text

/-- The coloured form of an instruction, followed by its remark. -/
def Instr.coloured (i : Instr) : String :=
  let body := Text.paint [.red] (Text.padRight 5 i.op.name) ++
    ", ".intercalate (i.operands.map Operand.coloured)
  match i.comment with
  | some c => body ++ " " ++ Text.paint [.green] ("; " ++ c)
  | none => body

end Stepwise
