import Stepwise.Machine.Basic

/-!
# The recorder

A record of a run with one event for each executed instruction.
-/

namespace Stepwise

/-- An executed instruction, with the stack and base pointers after it. -/
structure TraceEvent where
  step : Nat
  pc : Nat
  instr : String
  sp : Nat
  bp : Nat
  deriving DecidableEq, Repr

/-- The event of an observation. -/
def Observation.event (o : Observation) : TraceEvent where
  step := o.step
  pc := o.pc
  instr := o.instr.text
  sp := o.state.sp
  bp := o.state.bp

/-- The hook that hands each event to `emit`. -/
def recorder {σ : Type} (emit : TraceEvent → σ → σ) : Hook σ := fun o world => emit o.event world

end Stepwise
