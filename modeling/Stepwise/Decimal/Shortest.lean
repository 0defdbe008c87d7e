import Stepwise.Decimal.Binary

/-!
# The fewest digits that read back

Among the decimals that round to a given double, the ones with the fewest digits, and of these the
nearest to the double. The search tries grids of 1, 2, … 17 digits and looks at the two neighbours
of the double on each grid. All comparisons are between natural numbers.

## Main definitions

* `Digits`: a decimal `coefficient * 10 ^ exponent`
* `Tie`: which neighbour wins when both are equally near
* `shortest`: the shortest decimal of a positive double
-/

namespace Stepwise.Decimal

/-- The decimal `coefficient * 10 ^ exponent`. -/
structure Digits where
  coefficient : Nat
  exponent : Int
  deriving DecidableEq, Repr

/-- Which of two equally near neighbours is taken. -/
inductive Tie where
  | up
  | even
  deriving DecidableEq, Repr

/-- `a ^ e` if the exponent is positive, else one. -/
def powPos (a : Nat) (e : Int) : Nat := Nat.pow a e.toNat

/-- The exponent of ten of the leading digit of `m * 2 ^ q`, for positive `m`. -/
def leadingExponent (m : Nat) (q : Int) : Int :=
  let scale : Nat := if q < 0 then 340 else 0
  let whole := m * powPos 2 q * Nat.pow 10 scale / powPos 2 (-q)
  ((Nat.toDigits 10 whole).length : Int) - 1 - scale

/-- The neighbour of `m * 2 ^ q` on the grid of step `10 ^ k` that is nearest among those that round
to it, if there is one. The reals that round to the double reach half a step of its own grid to both
sides, a quarter below a power of two, and include their ends when `m` is even. -/
def nearestOnGrid (tie : Tie) (m : Nat) (q k : Int) : Option Nat :=
  let num := m * (powPos 2 q * powPos 10 (-k))
  let scale := powPos 2 q * powPos 10 (-k)
  let den := powPos 2 (-q) * powPos 10 k
  let below := if m = fractionCount ∧ -1074 < q then 4 * m - 1 else 4 * m - 2
  let above := 4 * m + 2
  let inside (c : Nat) : Bool :=
    if m % 2 = 0 then below * scale ≤ 4 * c * den && 4 * c * den ≤ above * scale
    else below * scale < 4 * c * den && 4 * c * den < above * scale
  let lower := num / den
  let upper := lower + 1
  match inside lower, inside upper with
  | false, false => none
  | true, false => some lower
  | false, true => some upper
  | true, true =>
    let twice := 2 * (num % den)
    if twice < den then some lower
    else if den < twice then some upper
    else match tie with
      | .up => some upper
      | .even => if lower % 2 = 0 then some lower else some upper

/-- A decimal without trailing zeros in its coefficient; `fuel` bounds their number. -/
def Digits.normalize : Nat → Digits → Digits
  | 0, d => d
  | fuel + 1, d =>
    if d.coefficient ≠ 0 ∧ d.coefficient % 10 = 0 then
      Digits.normalize fuel ⟨d.coefficient / 10, d.exponent + 1⟩
    else d

/-- The shortest decimal that rounds to `m * 2 ^ q`, for positive `m`. Seventeen digits always
suffice. -/
def shortest (tie : Tie) (m : Nat) (q : Int) : Digits :=
  let top := leadingExponent m q
  let found := (List.range 17).findSome? fun (n : Nat) =>
    let k := top - n
    (nearestOnGrid tie m q k).map fun c => (⟨c, k⟩ : Digits)
  (found.getD ⟨0, 0⟩).normalize 20

end Stepwise.Decimal
