import Stepwise.Image
import Stepwise.Machine.Memory

/-!
# Machines

A machine is a loaded image with its state, in a world that belongs to the host. The host gives
names to functions that the program may call, and may attach hooks that see every executed
instruction. Host functions and hooks act on the world only.

## Main definitions

* `HostFunction`, `Hook`, `Machine`: a machine and its host
* `Action`: computations that change a machine and may fail half-way
* `Machine.load`, `Machine.register`, `Machine.attach`: setting up a machine
-/

namespace Stepwise

/-- A function of the host: from its arguments, the first one first, and the world to a result and
the new world. -/
abbrev HostFunction (σ : Type) := List Value → σ → Value × σ

/-- What a hook sees of an executed instruction: its number in the run, its address, and the machine
after it. -/
structure Observation where
  step : Nat
  pc : Nat
  instr : Instr
  image : Image
  state : State

/-- A hook changes the world after each executed instruction. -/
abbrev Hook (σ : Type) := Observation → σ → σ

/-- A loaded program with its state and its host. -/
structure Machine (σ : Type) where
  image : Image
  state : State
  hosts : Table (HostFunction σ)
  hooks : List (Hook σ)
  world : σ

/-- A computation on a machine. If it fails, the machine stays as the failure found it. -/
abbrev Action (σ : Type) := EStateM Fault (Machine σ)

namespace Machine

variable {σ α : Type}

/-- The machine in which a program starts, without host functions and hooks. -/
def load (image : Image) (world : σ) : Machine σ where
  image := image
  state := .initial image.globals
  hosts := .empty
  hooks := []
  world := world

/-- The machine with a host function; it replaces an earlier one of the same name. -/
def register (m : Machine σ) (name : String) (f : HostFunction σ) : Machine σ :=
  { m with hosts := m.hosts.insert name f }

/-- The machine with a hook that runs after all others. -/
def attach (m : Machine σ) (hook : Hook σ) : Machine σ :=
  { m with hooks := m.hooks ++ [hook] }

/-- Whether the host has a function of this name. -/
def isRegistered (m : Machine σ) (name : String) : Bool := m.hosts.contains name

/-- Whether there is an instruction at the program counter. -/
def hasNext (m : Machine σ) : Bool := m.state.pc < m.image.code.size

end Machine

namespace Action

variable {σ α : Type}

/-- Reads something off the state; a failed reading fails. -/
def ask (query : State → Except Fault α) : Action σ α := fun m =>
  match query m.state with
  | .ok a => .ok a m
  | .error e => .error e m

/-- Changes the state. -/
def change (f : State → State) : Action σ Unit := fun m =>
  .ok () { m with state := f m.state }

/-- Changes the state by a step that may fail; a failed step leaves it alone. -/
def attempt (f : State → Except Fault State) : Action σ Unit := fun m =>
  match f m.state with
  | .ok s => .ok () { m with state := s }
  | .error e => .error e m

/-- A result that may be a fault. -/
def ofExcept (r : Except Fault α) : Action σ α := fun m =>
  match r with
  | .ok a => .ok a m
  | .error e => .error e m

end Action

end Stepwise
