import Stepwise.Decimal.Shortest

/-!
# Layouts of a double

How the digits of a double are set: with all zeros written out, or with an exponent of ten beyond a
range of sizes. A layout is a record; the digits come from `shortest`.

## Main definitions

* `Layout`: the decisions of one format
* `Layout.write`: a double in a format
-/

namespace Stepwise.Decimal

/-- The decisions of one format of doubles. -/
structure Layout where
  /-- Sizes written without an exponent: the least and the greatest exponent of the leading digit,
  or `none` if every size is. -/
  range : Option (Int × Int)
  /-- Whether an integral number ends in `.0` when it has no exponent. -/
  pointZero : Bool
  tie : Tie
  nan : String
  infinity : String

/-- Whether the layout writes a number of this size without an exponent. -/
def Layout.positional (l : Layout) (top : Int) : Bool :=
  match l.range with
  | none => true
  | some (least, greatest) => least ≤ top && top ≤ greatest

/-- So many zeros. -/
def zeros (n : Nat) : List Char := List.replicate n '0'

/-- Digits with a decimal point after the first `point` of them, where `point` may lie outside. -/
def setPoint (digits : List Char) (point : Int) (pointZero : Bool) : List Char :=
  if point ≤ 0 then
    ['0', '.'] ++ zeros (-point).toNat ++ digits
  else if digits.length ≤ point.toNat then
    digits ++ zeros (point.toNat - digits.length) ++ (if pointZero then ['.', '0'] else [])
  else
    digits.take point.toNat ++ ['.'] ++ digits.drop point.toNat

/-- Digits with a point after the first and an exponent of ten. -/
def setExponent (digits : List Char) (top : Int) : List Char :=
  let fraction := digits.drop 1
  digits.take 1 ++ (if fraction.isEmpty then [] else '.' :: fraction) ++
    ['e'] ++ (toString top).toList

/-- The digits of a positive decimal in a layout. -/
def Layout.place (l : Layout) (d : Digits) : List Char :=
  let digits := Nat.toDigits 10 d.coefficient
  let point : Int := d.exponent + digits.length
  if l.positional (point - 1) then setPoint digits point l.pointZero
  else setExponent digits (point - 1)

/-- The sign of a number, if it is negative. -/
def signMark (negative : Bool) : List Char := if negative then ['-'] else []

/-- A double in a layout. -/
def Layout.write (l : Layout) (x : Float) : String :=
  match parts x with
  | .nan => l.nan
  | .infinite negative => String.ofList (signMark negative) ++ l.infinity
  | .finite negative m q =>
    let body :=
      if m = 0 then '0' :: (if l.pointZero then ['.', '0'] else [])
      else l.place (shortest l.tie m q)
    String.ofList (signMark negative ++ body)

/-- Numbers as programs print them: never an exponent, and no point in an integral number. -/
def plain : Layout where
  range := none
  pointZero := false
  tie := .up
  nan := "NaN"
  infinity := "inf"

/-- Numbers as diagnostics show them: always a point or an exponent, and an exponent below `1e-4`
and from `1e16` on. -/
def diagnostic : Layout where
  range := some (-4, 15)
  pointZero := true
  tie := .up
  nan := "NaN"
  infinity := "inf"

/-- Numbers as files store them: always a point or an exponent, and an exponent below `1e-5` and
from `1e16` on. -/
def stored : Layout where
  range := some (-5, 15)
  pointZero := true
  tie := .even
  nan := ".nan"
  infinity := ".inf"

end Stepwise.Decimal
