import Stepwise.Machine.Basic
import Stepwise.Machine.Operation

/-!
# Execution

One instruction at a time: it is fetched and decoded, changes the state, sets the program counter
and counts as a step, and then the hooks see it. An instruction that fails changes nothing.

A function is called with its arguments on the stack, the first one on top. The call pushes the link
slot, which the base pointer then points to, so that parameters lie below it and locals above.

## Main definitions

* `Machine.perform`: the effect of an operation
* `Machine.executeNext`: the execution of the next instruction
* `Machine.runWhile`: execution for at most so many steps
-/

namespace Stepwise.Machine

variable {σ : Type}

/-- Where execution goes on. -/
inductive Flow where
  | next
  | jump (target : Nat)
  deriving DecidableEq, Repr

/-- The value of an operand that must be an integer. -/
def readInt (i : Instr) (o : Operand) : Action σ Int64 := do
  let v ← Action.ask (·.read o)
  match v.toInt? with
  | some n => return n
  | none => throw (.malformed i.text .integerOperand)

/-- The address that an integer names. -/
def jumpTarget (target : Int) : Except Fault Nat :=
  if 0 ≤ target then .ok target.toNat else .error (.invalidJump target)

/-- The number of arguments that an integer names. -/
def argumentCount (i : Instr) (n : Int64) : Except Fault Nat :=
  if 0 ≤ n.toInt then .ok n.toInt.toNat else .error (.malformed i.text .negativeCount)

/-- Takes the top of the stack. -/
def popValue : Action σ Value := do
  let v ← Action.ask fun s =>
    match s.stack.back? with
    | some v => .ok v
    | none => .error .stackUnderflow
  Action.change fun s => { s with stack := s.stack.pop }
  return v

/-- Takes so many arguments off the stack; the first argument is on top. -/
def popArguments (argc : Nat) : Action σ (List Value) := do
  let args ← Action.ask fun s => .ok (s.stack.drop (s.stack.size - argc)).toList.reverse
  Action.change fun s => { s with stack := s.stack.shrink (s.stack.size - argc) }
  return args

/-- Lets the host compute a result. -/
def callHost (f : HostFunction σ) (args : List Value) : Action σ Value := fun m =>
  let (v, world) := f args m.world
  .ok v { m with world := world }

/-- Enters a function: the caller is remembered and the link slot is pushed. -/
def enter (pc argc : Nat) (s : State) : State :=
  { s with
    frames := ⟨pc + 1, s.bp, argc⟩ :: s.frames
    stack := s.stack.push (.int (Int64.ofNat (pc + 1)))
    bp := s.stack.size }

/-- The effect of an operation at address `pc`, and where execution goes on. -/
def perform (pc : Nat) (i : Instr) : Operation → Action σ Flow
  | .compute op dest src => do
    let a ← Action.ask (·.read dest)
    let b ← Action.ask (·.read src)
    let v ← Action.ofExcept (liftArithmetic (alu op a b))
    Action.attempt (·.write dest v)
    return .next
  | .change op dest => do
    let a ← Action.ask (·.read dest)
    let v ← Action.ofExcept (liftArithmetic (increment op a))
    Action.attempt (·.write dest v)
    return .next
  | .move dest src => do
    let v ← Action.ask (·.read src)
    Action.attempt (·.write dest v)
    return .next
  | .load dest v => do
    Action.change (·.setRegister dest v)
    return .next
  | .push src => do
    let v ← Action.ask (·.read src)
    Action.change (·.push v)
    return .next
  | .pop dest => do
    let v ← popValue
    -- the destination is addressed on the shortened stack
    try Action.attempt (·.write dest v)
    catch e =>
      Action.change (·.push v)
      throw e
    return .next
  | .jump relative target condition => do
    let skip ← match condition with
      | none => pure false
      | some c => do
        let v ← Action.ask (·.read c)
        pure (!v.isZero)
    if skip then return .next
    let t ← readInt i target
    let t := if relative then (pc : Int) + t.toInt else t.toInt
    return .jump (← Action.ofExcept (jumpTarget t))
  | .call target argc => do
    let n ← readInt i argc
    let argc ← Action.ofExcept (argumentCount i n)
    let s ← Action.ask .ok
    if s.stack.size < argc then throw .stackUnderflow
    match target with
    | .host name => do
      match (← get).hosts.get? name with
      | none => throw (.unregistered name)
      | some f => do
        let args ← popArguments argc
        let v ← callHost f args
        Action.change (·.setRegister .rv v)
        return .next
    | target => do
      let t ← readInt i target
      let t ← Action.ofExcept (jumpTarget t.toInt)
      Action.change (enter pc argc)
      return .jump t
  | .ret => do
    let s ← Action.ask .ok
    match s.frames with
    | [] => throw .noCallFrame
    | frame :: rest => do
      if s.bp < frame.argc then throw (.malformed i.text .lowFrame)
      Action.change fun s =>
        { s with frames := rest, stack := s.stack.shrink (s.bp - frame.argc), bp := frame.bp }
      return .jump frame.returnPc
  | .nop => return .next

/-- Sets the program counter and counts the step. -/
def advance (pc : Nat) (flow : Flow) (s : State) : State :=
  { s with
    pc := match flow with
      | .next => pc + 1
      | .jump target => target
    steps := s.steps + 1 }

/-- Shows an executed instruction to the hooks, in the order of their attachment. -/
def notify (pc : Nat) (i : Instr) : Action σ Unit := fun m =>
  let seen : Observation := ⟨m.state.steps, pc, i, m.image, m.state⟩
  .ok () { m with world := m.hooks.foldl (fun w hook => hook seen w) m.world }

/-- Executes the instruction at the program counter. -/
def executeNext : Action σ Unit := do
  let m ← get
  let pc := m.state.pc
  match m.image.code[pc]? with
  | none => throw (.halted pc)
  | some i => do
    let operation ← Action.ofExcept i.decode
    let flow ← perform pc i operation
    Action.change (advance pc flow)
    notify pc i

/-- Executes instructions while a condition holds, at most `fuel` of them, and stops at a fault. -/
def runWhile (goOn : Machine σ → Bool) : Nat → Machine σ → Machine σ × Option Fault
  | 0, m => (m, none)
  | fuel + 1, m =>
    if goOn m then
      match executeNext m with
      | .ok _ m => runWhile goOn fuel m
      | .error e m => (m, some e)
    else (m, none)

end Stepwise.Machine
