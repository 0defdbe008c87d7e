import Stepwise.Text.ExtendingMark
import Stepwise.Text.Invisible

/-!
# Quoted text

A text between double quotes, as diagnostics and instruction operands show it. The quote, the
backslash and the usual control characters have a short escape; a character that does not show on
its own is written by its code point; every other character stands for itself.

## Main definitions

* `isHidden`: characters that are written by their code point
* `quote`: the quoted form of a text
-/

namespace Stepwise.Text

/-- Characters that do not show on their own: in ASCII the controls, beyond it the invisible
characters and the marks that extend their neighbour. -/
def isHidden (c : Char) : Bool :=
  let n := c.toNat
  if n < 0x7F then n < 0x20
  else n == 0x7F || invisibles.contains c || extendingMarks.contains c

/-- The printing characters of ASCII show. -/
theorem isHidden_eq_false_of_ascii {c : Char} (h : 0x20 ≤ c.toNat) (h' : c.toNat < 0x7F) :
    isHidden c = false := by
  simp [isHidden, h', Nat.not_lt.mpr h]

/-- Lower-case hexadecimal digits of a number. -/
def hexDigits (n : Nat) : List Char := Nat.toDigits 16 n

/-- The quoted form of one character. -/
def quoteChar (c : Char) : List Char :=
  match c with
  | '"' => ['\\', '"']
  | '\\' => ['\\', '\\']
  | '\n' => ['\\', 'n']
  | '\r' => ['\\', 'r']
  | '\t' => ['\\', 't']
  | '\x00' => ['\\', '0']
  | c => if isHidden c then ['\\', 'u', '\x7b'] ++ hexDigits c.toNat ++ ['\x7d'] else [c]

/-- A text between double quotes, with what needs it escaped. -/
def quote (s : String) : String :=
  String.ofList ('"' :: s.toList.flatMap quoteChar ++ ['"'])

end Stepwise.Text
