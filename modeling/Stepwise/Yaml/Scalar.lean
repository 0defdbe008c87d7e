import Stepwise.Decimal.Reading
import Stepwise.Yaml.Node

/-!
# Scalars

What a scalar without quotes stands for, and how a text must be written so that it is read back as
the same text: plain, in single quotes, in double quotes with escapes, or as a literal block.

## Main definitions

* `resolve`: the data of a plain scalar
* `Style`, `styleOf`: the style of a text
* `singleQuoted`, `doubleQuoted`: quoted texts
-/

namespace Stepwise.Yaml

/-- The value of a digit in a base up to sixteen. -/
def digitValue? (base : Nat) (c : Char) : Option Nat :=
  let v? : Option Nat :=
    if '0' ≤ c ∧ c ≤ '9' then some (c.toNat - '0'.toNat)
    else if 'a' ≤ c ∧ c ≤ 'f' then some (c.toNat - 'a'.toNat + 10)
    else if 'A' ≤ c ∧ c ≤ 'F' then some (c.toNat - 'A'.toNat + 10)
    else none
  v?.bind fun v => if v < base then some v else none

/-- The value of one or more digits. -/
def natOfDigits? (base : Nat) (ds : List Char) : Option Nat :=
  if ds.isEmpty then none
  else ds.foldlM (fun n d => (digitValue? base d).map (base * n + ·)) 0

/-- A plain scalar of digits with a leading zero is a text, not a number. -/
def isZeroPadded (s : List Char) : Bool :=
  let body := match s with
    | '-' :: rest | '+' :: rest => rest
    | s => s
  match body with
  | '0' :: d :: rest => (d :: rest).all Char.isDigit
  | _ => false

/-- An unsigned integer in one of four bases. -/
def unsigned? : List Char → Option Nat
  | '0' :: 'x' :: rest => natOfDigits? 16 rest
  | '0' :: 'o' :: rest => natOfDigits? 8 rest
  | '0' :: 'b' :: rest => natOfDigits? 2 rest
  | s => natOfDigits? 10 s

/-- The largest natural number of 128 bits. -/
def maxNatural : Nat := 0xFFFFFFFFFFFFFFFFFFFFFFFFFFFFFFFF

/-- The size of the least integer of 128 bits. -/
def maxNegated : Nat := 0x80000000000000000000000000000000

/-- The integer that a plain scalar stands for, of at most 128 bits. -/
def integer? (s : List Char) : Option Int :=
  if isZeroPadded s then none
  else match s with
    | '-' :: rest =>
      (unsigned? rest).bind fun n => if n ≤ maxNegated then some (-(n : Int)) else none
    | '+' :: rest =>
      (unsigned? rest).bind fun n => if n ≤ maxNatural then some (n : Int) else none
    | s => (unsigned? s).bind fun n => if n ≤ maxNatural then some (n : Int) else none

/-- The double that a plain scalar stands for. The named doubles start with a point. -/
def float? (s : List Char) : Option Float :=
  let finite (body : List Char) : Option Float :=
    (Decimal.readNumber? body).bind fun x => if x.isFinite then some x else none
  match String.ofList s with
  | ".inf" | ".Inf" | ".INF" | "+.inf" | "+.Inf" | "+.INF" => some Decimal.infinity
  | "-.inf" | "-.Inf" | "-.INF" => some (-Decimal.infinity)
  | ".nan" | ".NaN" | ".NAN" => some Decimal.notANumber
  | _ =>
    match s with
    | '+' :: '+' :: _ | '+' :: '-' :: _ => none
    | '+' :: rest => finite rest
    | s => finite s

/-- The data of a scalar without quotes. -/
def resolve (s : String) : Node :=
  match s with
  | "" | "null" | "Null" | "NULL" | "~" => .null
  | "true" | "True" | "TRUE" => .bool true
  | "false" | "False" | "FALSE" => .bool false
  | s =>
    match integer? s.toList with
    | some n => .int n
    | none =>
      if isZeroPadded s.toList then .str s
      else match float? s.toList with
        | some x => .float x
        | none => .str s

/-- The style of a text. -/
inductive Style where
  | plain
  | single
  | double
  | literal
  deriving DecidableEq, Repr

/-- What stands between line ends. -/
def splitLines : List Char → List (List Char)
  | [] => [[]]
  | c :: rest =>
    if c == '\n' then [] :: splitLines rest
    else match splitLines rest with
      | [] => [[c]]
      | l :: ls => (c :: l) :: ls

/-- The lines of a text; a line end at the end of the text starts no line. -/
def textLines (s : String) : List String :=
  let ls := (splitLines s.toList).map String.ofList
  if ls.getLast? == some "" then ls.dropLast else ls

/-- Characters that end a line. -/
def isBreak (c : Char) : Bool :=
  c == '\n' || c == '\r' || c.toNat == 0x85 || c.toNat == 0x2028 || c.toNat == 0x2029

/-- Characters that end a word, or the end of the text. -/
def endsWord : Option Char → Bool
  | none => true
  | some c => c == ' ' || c == '\t' || c == '\x00' || isBreak c

/-- Characters that may stand for themselves. -/
def isPrintable (c : Char) : Bool :=
  let n := c.toNat
  n == 0x0A || (0x20 ≤ n && n ≤ 0x7E) || (0xA0 ≤ n && n ≤ 0xD7FF) ||
    (0xE000 ≤ n && n ≤ 0xFFFD && n != 0xFEFF) || 0x10000 ≤ n

/-- Characters that cannot start a plain text. -/
def isIndicator (c : Char) : Bool := "#,[]\x7b\x7d&*!|>'\"%@`".toList.contains c

/-- Whether a character cannot stand in a plain text between its neighbours, after the first
place. -/
def breaksPlain (previous : Char) (c : Char) (next : Option Char) : Bool :=
  (c == ':' && endsWord next) || (c == '#' && endsWord (some previous))

/-- Whether some character after the first cannot stand in a plain text. -/
def restBreaksPlain (previous : Char) : List Char → Bool
  | [] => false
  | c :: rest => breaksPlain previous c rest.head? || restBreaksPlain c rest

/-- Whether a text cannot be plain because of what its characters mean. -/
def hasIndicator : List Char → Bool
  | [] => false
  | '-' :: '-' :: '-' :: _ => true
  | '.' :: '.' :: '.' :: _ => true
  | c :: rest =>
    isIndicator c || ((c == '?' || c == ':' || c == '-') && endsWord rest.head?) ||
      restBreaksPlain c rest

/-- Whether a blank stands in front of a line end. -/
def blankBeforeBreak : List Char → Bool
  | c :: d :: rest => (c == ' ' && isBreak d) || blankBeforeBreak (d :: rest)
  | _ => false

/-- Whether a blank stands behind a line end. -/
def blankAfterBreak : List Char → Bool
  | c :: d :: rest => (isBreak c && d == ' ') || blankAfterBreak (d :: rest)
  | _ => false

/-- Whether a plain scalar would be read as a text. -/
def readsAsText (s : String) : Bool :=
  match resolve s with
  | .str _ => !isZeroPadded s.toList
  | _ => false

/-- The style of a text. -/
def styleOf (s : String) : Style :=
  let cs := s.toList
  let special := cs.any (!isPrintable ·) || blankBeforeBreak cs
  let blankEnds := cs.head? == some ' ' || cs.getLast? == some ' '
  if cs.contains '\n' then
    if special || cs.getLast? == some ' ' then .double else .literal
  else if special || blankAfterBreak cs then .double
  else if readsAsText s && !blankEnds && !cs.any isBreak && !hasIndicator cs then .plain
  else .single

/-- The single quote. -/
def apostrophe : Char := '\x27'

/-- A character in single quotes; a quote is doubled. -/
def doubleApostrophe (c : Char) : List Char :=
  if c = apostrophe then [apostrophe, apostrophe] else [c]

/-- A text in single quotes. -/
def singleQuoted (s : String) : String :=
  String.ofList ([apostrophe] ++ s.toList.flatMap doubleApostrophe ++ [apostrophe])

/-- A number in so many upper-case hexadecimal digits. -/
def hexUpper (width n : Nat) : List Char :=
  let ds := (Nat.toDigits 16 n).map Char.toUpper
  List.replicate (width - ds.length) '0' ++ ds

/-- The escapes of a single letter. -/
def shortEscapes : List (Char × Char) :=
  [('\x00', '0'), ('\x07', 'a'), ('\x08', 'b'), ('\t', 't'), ('\n', 'n'), ('\x0b', 'v'),
    ('\x0c', 'f'), ('\r', 'r'), ('\x1b', 'e'), ('"', '"'), ('\\', '\\'), ('\u0085', 'N'),
    ('\u2028', 'L'), ('\u2029', 'P')]

/-- A character in double quotes. -/
def escapeChar (c : Char) : List Char :=
  match shortEscapes.lookup c with
  | some e => ['\\', e]
  | none =>
    if isPrintable c then [c]
    else if c.toNat ≤ 0xFF then ['\\', 'x'] ++ hexUpper 2 c.toNat
    else if c.toNat ≤ 0xFFFF then ['\\', 'u'] ++ hexUpper 4 c.toNat
    else ['\\', 'U'] ++ hexUpper 8 c.toNat

/-- A text in double quotes. -/
def doubleQuoted (s : String) : String :=
  String.ofList (['"'] ++ s.toList.flatMap escapeChar ++ ['"'])

end Stepwise.Yaml
