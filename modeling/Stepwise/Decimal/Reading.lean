/-!
# Reading a decimal

The numbers that a text can stand for: `inf`, `infinity` and `nan` in any letter case, or digits
with an optional point and exponent of ten, all with an optional sign. Digits are ASCII digits, and
at least one must stand before or after the point. The double nearest to the decimal is taken.

## Main definitions

* `readNumber?`: the double that a text stands for
-/

namespace Stepwise.Decimal

/-- The value of a string of digits. -/
def digitsValue (ds : List Char) : Nat :=
  ds.foldl (fun n d => 10 * n + (d.toNat - '0'.toNat)) 0

/-- Positive infinity. -/
def infinity : Float := 1.0 / 0.0

/-- A double that is not a number. -/
def notANumber : Float := 0.0 / 0.0

/-- The double nearest to `m * 10 ^ e`. A decimal beyond all finite doubles gives infinity and one
below half of the least positive double gives zero, so the power of ten stays small. -/
def ofDecimal (m : Nat) (e : Int) : Float :=
  let top := ((Nat.toDigits 10 m).length : Int) + e
  if m = 0 then 0.0
  else if 310 < top then infinity
  else if top < -330 then 0.0
  else match e with
    | .ofNat k => Float.ofScientific m false k
    | .negSucc k => Float.ofScientific m true (k + 1)

/-- The digits at the front of a text, and the rest. -/
def spanDigits (s : List Char) : List Char × List Char :=
  (s.takeWhile Char.isDigit, s.dropWhile Char.isDigit)

/-- An optional sign at the front of a text: whether it is a minus, and the rest. -/
def spanSign : List Char → Bool × List Char
  | '-' :: rest => (true, rest)
  | '+' :: rest => (false, rest)
  | rest => (false, rest)

/-- The exponent that a text consists of; the empty text is exponent zero. -/
def readExponent? : List Char → Option Int
  | [] => some 0
  | c :: rest =>
    if c = 'e' ∨ c = 'E' then
      let (negative, rest) := spanSign rest
      let (digits, rest) := spanDigits rest
      if digits.isEmpty || !rest.isEmpty then none
      else some (if negative then -(digitsValue digits : Int) else digitsValue digits)
    else none

/-- The decimal without a sign that a text consists of. -/
def readUnsigned? (s : List Char) : Option Float :=
  let (whole, rest) := spanDigits s
  let (fraction, rest) := match rest with
    | '.' :: rest => spanDigits rest
    | rest => ([], rest)
  if whole.isEmpty && fraction.isEmpty then none
  else (readExponent? rest).map fun e =>
    ofDecimal (digitsValue (whole ++ fraction)) (e - fraction.length)

/-- The double that a text stands for, if it stands for one. -/
def readNumber? (s : List Char) : Option Float :=
  let (negative, body) := spanSign s
  let magnitude? : Option Float :=
    match String.ofList (body.map Char.toLower) with
    | "inf" | "infinity" => some infinity
    | "nan" => some notANumber
    | _ => readUnsigned? body
  magnitude?.map fun x => if negative then -x else x

end Stepwise.Decimal
