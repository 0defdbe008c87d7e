import Stepwise.Machine.Basic
import Stepwise.Text.Colour

/-!
# The console

The functions `print` and `println` of the host. They write their arguments, with a blank between
them, and `println` ends the line.
-/

namespace Stepwise.Console

variable {σ : Type}

/-- The line that the arguments of a call make. -/
def line (args : List Value) : String := " ".intercalate (args.map Value.text)

/-- A console text as it is shown, in bold red if `style` is set. -/
def shown (style : Bool) (s : String) : String :=
  if style then Text.paint [.red, .bold] s else s

/-- The machine with `print` and `println`, which hand their text to `emit`. -/
def install (emit : String → σ → σ) (m : Machine σ) : Machine σ :=
  let writer (ending : String) : HostFunction σ := fun args world =>
    (.int 0, emit (line args ++ ending) world)
  (m.register "print" (writer "")).register "println" (writer "\n")

end Stepwise.Console
