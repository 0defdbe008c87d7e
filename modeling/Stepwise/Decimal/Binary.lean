/-!
# The parts of a double

A double is a sign, a natural number and a power of two, unless it is an infinity or not a number.
What follows from these parts (the integer part, the decimal digits) is exact integer arithmetic.

## Main definitions

* `Parts`, `parts`: the parts of a double
* `truncate`: the integer part, clamped to 64 bits
-/

namespace Stepwise.Decimal

/-- The parts of a double. A finite one is `mantissa * 2 ^ exponent` with a sign. -/
inductive Parts where
  | nan
  | infinite (negative : Bool)
  | finite (negative : Bool) (mantissa : Nat) (exponent : Int)
  deriving DecidableEq, Repr

/-- How many fractions there are: the lowest 52 bits of a double. -/
def fractionCount : Nat := 0x10000000000000

/-- The parts that a 64-bit pattern stands for. -/
def partsOfBits (bits : Nat) : Parts :=
  let negative := bits / 0x8000000000000000 % 2 == 1
  let exponent : Nat := bits / fractionCount % 2048
  let fraction : Nat := bits % fractionCount
  if exponent = 2047 then
    if fraction = 0 then .infinite negative else .nan
  else if exponent = 0 then
    .finite negative fraction (-1074)
  else
    .finite negative (fraction + fractionCount) ((exponent : Int) - 1075)

/-- The parts of a double. -/
def parts (x : Float) : Parts := partsOfBits x.toBits.toNat

/-- The largest 64-bit integer. -/
def maxWord : Int := 0x7FFFFFFFFFFFFFFF

/-- The least 64-bit integer. -/
def minWord : Int := -0x8000000000000000

/-- The largest natural number of 64 bits. -/
def maxNatWord : Nat := 0xFFFFFFFFFFFFFFFF

/-- Whether an integer is a 64-bit integer. -/
def fitsWord (n : Int) : Bool := minWord ≤ n && n ≤ maxWord

/-- The nearest 64-bit integer. -/
def clampWord (n : Int) : Int64 := Int64.ofInt (max minWord (min maxWord n))

/-- An integer with a given sign. -/
def withSign (negative : Bool) (n : Nat) : Int := if negative then -(n : Int) else n

/-- The natural number below `mantissa * 2 ^ exponent`. -/
def wholePart (mantissa : Nat) : Int → Nat
  | .ofNat e => mantissa * Nat.pow 2 e
  | .negSucc e => mantissa / Nat.pow 2 (e + 1)

/-- The integer part of a double, toward zero. What is too large for 64 bits gives the nearest
bound, and what is not a number gives zero. -/
def truncate (x : Float) : Int64 :=
  match parts x with
  | .nan => 0
  | .infinite negative => if negative then clampWord minWord else clampWord maxWord
  | .finite negative m e => clampWord (withSign negative (wholePart m e))

/-- The double nearest to a 64-bit integer. -/
def ofWord (n : Int64) : Float := Float.ofInt n.toInt

end Stepwise.Decimal
