/-!
# Columns

Filling a text up to the width of a column. A text that is already wider is left alone, and the
width counts characters.
-/

namespace Stepwise.Text

/-- The copies of `c` that a text lacks to reach a width. -/
def filler (c : Char) (width : Nat) (s : String) : String :=
  String.ofList (List.replicate (width - s.length) c)

/-- A text at the left of a column of blanks. -/
def padRight (width : Nat) (s : String) : String :=
  s ++ filler ' ' width s

/-- A text at the right of a column of blanks. -/
def padLeft (width : Nat) (s : String) : String :=
  filler ' ' width s ++ s

/-- A number at the right of a column of zeros. -/
def zeroPadded (width : Nat) (n : Nat) : String :=
  filler '0' width (toString n) ++ toString n

/-- An integer with its sign, also when it is not negative. -/
def signed (n : Int) : String :=
  if 0 ≤ n then "+" ++ toString n else toString n

/-- Lines with their ends. -/
def unlines (ls : List String) : String := String.join (ls.map (· ++ "\n"))

end Stepwise.Text
