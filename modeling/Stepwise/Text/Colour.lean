/-!
# Colours

Terminal styles as pairs of control sequences. A span opens its styles in the written order and
closes them in that same order.

## Main definitions

* `Style`: the styles in use
* `paint`: a text inside a span
-/

namespace Stepwise.Text

/-- A terminal style. -/
inductive Style where
  | red
  | green
  | yellow
  | blue
  | magenta
  | cyan
  | bold
  | underline
  deriving DecidableEq, Repr

/-- The control sequence with a given parameter. -/
def control (code : String) : String := "\x1b[" ++ code ++ "m"

/-- The parameter that switches a style on. -/
def Style.on : Style → String
  | .red => "31"
  | .green => "32"
  | .yellow => "33"
  | .blue => "34"
  | .magenta => "35"
  | .cyan => "36"
  | .bold => "1"
  | .underline => "4"

/-- The parameter that switches a style off; all colours share one. -/
def Style.off : Style → String
  | .bold => "22"
  | .underline => "24"
  | _ => "39"

/-- A text inside a span of the given styles. -/
def paint (styles : List Style) (s : String) : String :=
  String.join (styles.map (control ·.on)) ++ s ++ String.join (styles.map (control ·.off))

end Stepwise.Text
