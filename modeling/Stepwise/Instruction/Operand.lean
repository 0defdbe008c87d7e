import Stepwise.Text.Column
import Stepwise.Value

/-!
# Operands

The registers of the machine, addresses of memory slots, and the operands of instructions. Two kinds
of operand occur only while code is being generated: a variable that awaits its place in the frame,
and a label that awaits an address.

## Main definitions

* `Reg`: the ten registers
* `Ptr`: an address `base + offset`, with an optional index register
* `Operand`: the operands
-/

namespace Stepwise

/-- A register. `rv` holds the result of the last call and `ix` the index of an array element. -/
inductive Reg where
  | r0
  | r1
  | r2
  | r3
  | r4
  | r5
  | r6
  | r7
  | rv
  | ix
  deriving DecidableEq, Repr, Inhabited

namespace Reg

/-- The number of a register. -/
def index : Reg → Fin 10
  | .r0 => 0
  | .r1 => 1
  | .r2 => 2
  | .r3 => 3
  | .r4 => 4
  | .r5 => 5
  | .r6 => 6
  | .r7 => 7
  | .rv => 8
  | .ix => 9

/-- The name of a register. -/
def name : Reg → String
  | .r0 => "R0"
  | .r1 => "R1"
  | .r2 => "R2"
  | .r3 => "R3"
  | .r4 => "R4"
  | .r5 => "R5"
  | .r6 => "R6"
  | .r7 => "R7"
  | .rv => "RV"
  | .ix => "IX"

/-- All registers, in the order of their numbers. -/
def all : List Reg := [.r0, .r1, .r2, .r3, .r4, .r5, .r6, .r7, .rv, .ix]

/-- The register with a given name. -/
def ofName? (s : String) : Option Reg := all.find? (·.name == s)

theorem ofName?_name (r : Reg) : ofName? r.name = some r := by
  cases r <;> decide

theorem index_injective {r s : Reg} (h : r.index = s.index) : r = s := by
  revert h
  cases r <;> cases s <;> decide

end Reg

/-- Where addresses are counted from. -/
inductive Base where
  /-- The link slot of the running function. -/
  | frame
  /-- The start of the global region. -/
  | global
  deriving DecidableEq, Repr

namespace Base

/-- The name of a base. -/
def name : Base → String
  | .frame => "EBP"
  | .global => "GBP"

/-- The base with a given name. -/
def ofName? : String → Option Base
  | "EBP" => some .frame
  | "GBP" => some .global
  | _ => none

end Base

/-- The address of a slot: a base, an offset and the content of an index register. -/
structure Ptr where
  base : Base
  offset : Int
  index : Option Reg
  deriving DecidableEq, Repr

/-- An index register after what it indexes. -/
def indexText : Option Reg → String
  | none => ""
  | some r => "+" ++ r.name

/-- The written form of an address. -/
def Ptr.text (p : Ptr) : String :=
  p.base.name ++ Text.signed p.offset ++ indexText p.index

/-- An operand of an instruction. -/
inductive Operand where
  /-- A constant. -/
  | imm (value : Value)
  | reg (register : Reg)
  | ptr (address : Ptr)
  /-- A function of the host, called by name. -/
  | host (name : String)
  /-- A variable of the function, before it has a place in the frame. -/
  | var (key : String) (index : Option Reg)
  /-- A place in the code, before it has an address. -/
  | label (name : String)
  deriving DecidableEq, Repr

namespace Operand

/-- The written form of an operand. A constant text is quoted. -/
def text : Operand → String
  | .imm (.str s) => Text.quote s
  | .imm v => v.text
  | .reg r => r.name
  | .ptr p => p.text
  | .host name => name
  | .var key index => "$" ++ key ++ indexText index
  | .label name => "@" ++ name

/-- Whether an operand still awaits a place or an address. -/
def isPending : Operand → Bool
  | .var _ _ | .label _ => true
  | _ => false

end Operand

end Stepwise
