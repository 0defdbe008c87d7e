import Stepwise.Text.Blank
import Stepwise.Yaml.Scalar

/-!
# Reading a data tree

The tree of a YAML text: block mappings and sequences, flow mappings and sequences on one line,
scalars in all styles, tags and comments. Anchors, several documents and scalars that run over
several lines without a mark are not read.

The reader works on lines. A nested block consists of the following lines with a larger indent; a
sequence that is the value of a key may also start at the indent of the key.

## Main definitions

* `flowNode`: data on one line
* `blockNode`: data on several lines
* `parse?`: the tree of a text
-/

namespace Stepwise.Yaml

/-- Blanks inside a line. -/
def isSpace (c : Char) : Bool := c == ' ' || c == '\t'

/-- A text without the blanks in front. -/
def skipSpaces (s : List Char) : List Char := s.dropWhile isSpace

/-- Whether nothing but blanks and a comment is left on a line. -/
def isLineEnd (s : List Char) : Bool :=
  match skipSpaces s with
  | [] => true
  | '#' :: _ => true
  | _ => false

/-- The number that hexadecimal digits stand for. -/
def hexValue? (ds : List Char) : Option Nat := natOfDigits? 16 ds

/-- The character of an escape with so many hexadecimal digits, and the rest. -/
def hexEscape? (count : Nat) (s : List Char) : Option (Char × List Char) := do
  if s.length < count then none
  else
    let n ← hexValue? (s.take count)
    if n.isValidChar then some (Char.ofNat n, s.drop count) else none

/-- The character that an escape without a number stands for. -/
def shortEscape? (c : Char) : Option Char :=
  match (shortEscapes.find? (·.2 == c)).map (·.1) with
  | some e => some e
  | none =>
    if c == ' ' || c == '/' then some c
    else if c == '_' then some '\xa0'
    else none

/-- A text in double quotes after the opening quote, and what follows; `fuel` bounds its length. -/
def readDouble : Nat → List Char → Option (List Char × List Char)
  | 0, _ => none
  | _, [] => none
  | _, '"' :: rest => some ([], rest)
  | fuel + 1, '\\' :: c :: rest => do
    let (e, rest) ← match c with
      | 'x' => hexEscape? 2 rest
      | 'u' => hexEscape? 4 rest
      | 'U' => hexEscape? 8 rest
      | c => (shortEscape? c).map (·, rest)
    let (s, rest) ← readDouble fuel rest
    return (e :: s, rest)
  | fuel + 1, c :: rest => do
    let (s, rest) ← readDouble fuel rest
    return (c :: s, rest)

/-- A text in single quotes after the opening quote, and what follows. -/
def readSingle : List Char → Option (List Char × List Char)
  | [] => none
  | [c] => if c = apostrophe then some ([], []) else none
  | c :: d :: rest =>
    if c = apostrophe then
      if d = apostrophe then (readSingle rest).map fun (s, rest) => (apostrophe :: s, rest)
      else some ([], d :: rest)
    else (readSingle (d :: rest)).map fun (s, rest) => (c :: s, rest)

/-- Whether a plain scalar ends in front of these characters. -/
def plainEnds (flow : Bool) (previous : Option Char) (s : List Char) : Bool :=
  match s with
  | [] => true
  | c :: rest =>
    (c == '#' && endsWord previous) || (c == ':' && endsWord rest.head?) ||
      (flow && ",[]\x7b\x7d".toList.contains c)

/-- A plain scalar, and what follows. -/
def readPlain (flow : Bool) (previous : Option Char) : List Char → List Char × List Char
  | [] => ([], [])
  | c :: rest =>
    if plainEnds flow previous (c :: rest) then ([], c :: rest)
    else
      let (s, rest) := readPlain flow (some c) rest
      (c :: s, rest)

/-- The characters of a tag after its mark, and what follows. -/
def readTag (s : List Char) : String × List Char :=
  let ends (c : Char) := isSpace c || ",[]\x7b\x7d".toList.contains c
  (String.ofList (s.takeWhile (!ends ·)), s.dropWhile (!ends ·))

/-- A text from its characters, without the blanks at its ends. -/
def trimmed (s : List Char) : String := String.ofList (Text.trim s)

/-- A quoted text, and what follows. -/
def readQuoted (s : List Char) : Option (String × List Char) :=
  match s with
  | [] => none
  | c :: rest =>
    if c = '"' then
      (readDouble (rest.length + 1) rest).map fun (s, rest) => (String.ofList s, rest)
    else if c = apostrophe then
      (readSingle rest).map fun (s, rest) => (String.ofList s, rest)
    else none

/-- A key of a flow mapping, and what follows its colon. -/
def flowKey (s : List Char) : Option (String × List Char) :=
  let (key?, rest) := match readQuoted s with
    | some (key, rest) => (some key, rest)
    | none =>
      let (key, rest) := readPlain true none s
      (if key.isEmpty then none else some (trimmed key), rest)
  match key?, skipSpaces rest with
  | some key, ':' :: rest => some (key, rest)
  | _, _ => none

mutual

/-- Data on one line, and what follows. In flow style a scalar ends at a bracket or comma. -/
def flowNode (flow : Bool) : Nat → List Char → Option (Node × List Char)
  | 0, _ => none
  | fuel + 1, s =>
    match skipSpaces s with
    | '!' :: rest => do
      let (tag, rest) := readTag rest
      let (node, rest) ← flowNode flow fuel rest
      return (.tagged tag node, rest)
    | '\x7b' :: rest => flowMap fuel rest
    | '[' :: rest => flowSeq fuel rest
    | s =>
      match readQuoted s with
      | some (text, rest) => some (.str text, rest)
      | none =>
        if s.head? == some '"' || s.head? == some apostrophe then none
        else
          let (text, rest) := readPlain flow none s
          some (resolve (trimmed text), rest)

/-- The rest of a flow mapping after its opening bracket or a comma, and what follows. -/
def flowMap : Nat → List Char → Option (Node × List Char)
  | 0, _ => none
  | fuel + 1, s =>
    match skipSpaces s with
    | '\x7d' :: rest => some (.map [], rest)
    | s => do
      let (key, rest) ← flowKey s
      let (node, rest) ← flowNode true fuel rest
      let rest := skipSpaces rest
      let rest ← match rest with
        | ',' :: rest => some rest
        | '\x7d' :: _ => some rest
        | _ => none
      let (more, rest) ← flowMap fuel rest
      match more with
      | .map fields => some (.map ((key, node) :: fields), rest)
      | _ => none

/-- The rest of a flow sequence after its opening bracket or a comma, and what follows. -/
def flowSeq : Nat → List Char → Option (Node × List Char)
  | 0, _ => none
  | fuel + 1, s =>
    match skipSpaces s with
    | ']' :: rest => some (.seq [], rest)
    | s => do
      let (node, rest) ← flowNode true fuel s
      let rest := skipSpaces rest
      let rest ← match rest with
        | ',' :: rest => some rest
        | ']' :: _ => some rest
        | _ => none
      let (more, rest) ← flowSeq fuel rest
      match more with
      | .seq items => some (.seq (node :: items), rest)
      | _ => none

end

/-- The data that a line consists of, up to a comment. -/
def lineNode (s : List Char) : Option Node := do
  let (node, rest) ← flowNode false (s.length + 1) s
  if isLineEnd rest then some node else none

/-- The number of blanks in front of a line. -/
def indentOf (line : List Char) : Nat := (line.takeWhile (· == ' ')).length

/-- A line without the blanks in front. -/
def contentOf (line : List Char) : List Char := line.dropWhile (· == ' ')

/-- Lines without those in front that hold no data. -/
def skipEmpty (lines : List (List Char)) : List (List Char) := lines.dropWhile isLineEnd

/-- Whether a line starts with a mark. -/
def hasMark (mark : Char) : List Char → Bool
  | c :: rest => c == mark && endsWord rest.head?
  | [] => false

/-- A key at the front of a line, and what follows its colon. -/
def blockKey? (s : List Char) : Option (String × List Char) :=
  match readQuoted s with
  | some (key, rest) =>
    match skipSpaces rest with
    | ':' :: rest => if endsWord rest.head? then some (key, rest) else none
    | _ => none
  | none =>
    match s with
    | '\x7b' :: _ | '[' :: _ | '!' :: _ | '|' :: _ => none
    | s =>
      match readPlain false none s with
      | (key, ':' :: rest) => some (trimmed key, rest)
      | _ => none

/-- How the end of a literal block is read. -/
inductive Chomp where
  | strip
  | clip
  | keep
  deriving DecidableEq, Repr

/-- The header of a literal block after its mark: the indentation, if given, and the end. -/
def literalHeader? : List Char → Option (Option Nat × Chomp)
  | s =>
    let start : Option Nat × Chomp := (none, .clip)
    let marks := s.takeWhile fun c => c.isDigit || c == '-' || c == '+'
    if isLineEnd (s.drop marks.length) then
      some <| marks.foldl (fun (indent, chomp) c =>
        if c == '-' then (indent, .strip)
        else if c == '+' then (indent, .keep)
        else (some (c.toNat - '0'.toNat), chomp)) start
    else none

/-- Whether a line consists of blanks. -/
def isEmptyLine (line : List Char) : Bool := line.all (· == ' ')

/-- The lines of a literal block without its indentation, and the lines that follow. -/
def literalLines (indent : Nat) : List (List Char) → List (List Char) × List (List Char)
  | [] => ([], [])
  | line :: rest =>
    if isEmptyLine line || indent ≤ indentOf line then
      let (block, rest) := literalLines indent rest
      (line.drop indent :: block, rest)
    else ([], line :: rest)

/-- The text of a literal block from its lines. -/
def literalText (chomp : Chomp) (lines : List (List Char)) : String :=
  let full := lines.flatMap (· ++ ['\n'])
  let stripped := (full.reverse.dropWhile (· == '\n')).reverse
  String.ofList <| match chomp with
    | .keep => full
    | .strip => stripped
    | .clip => if stripped.isEmpty then [] else stripped ++ ['\n']

/-- A literal block after its mark, inside a block of the given indent, and the lines that
follow. -/
def readLiteral (parent : Nat) (header : List Char) (lines : List (List Char)) :
    Option (Node × List (List Char)) := do
  let (indent?, chomp) ← literalHeader? header
  let indent := match indent? with
    | some d => parent + d
    | none =>
      match lines.find? (!isEmptyLine ·) with
      | some line => max (indentOf line) (parent + 1)
      | none => parent + 1
  let (block, rest) := literalLines indent lines
  return (.str (literalText chomp block), rest)

mutual

/-- The data that follows a key or a mark: the rest of its line, or a nested block. Nested mappings
have an indent larger than `indent`, nested sequences at least `least`. -/
def blockValue : Nat → (indent least : Nat) → List Char → List (List Char) →
    Option (Node × List (List Char))
  | 0, _, _, _, _ => none
  | fuel + 1, indent, least, s, lines =>
    if isLineEnd s then nestedBlock fuel indent least lines
    else match skipSpaces s with
      | '|' :: header => readLiteral indent header lines
      | '!' :: rest => do
        let (tag, rest) := readTag rest
        let (node, lines) ← blockValue fuel indent least rest lines
        return (.tagged tag node, lines)
      | s => do
        let node ← lineNode s
        return (node, lines)

/-- A nested block, or nothing if the next line is not nested. -/
def nestedBlock : Nat → (indent least : Nat) → List (List Char) →
    Option (Node × List (List Char))
  | 0, _, _, _ => none
  | fuel + 1, indent, least, lines =>
    match skipEmpty lines with
    | [] => some (.null, [])
    | line :: rest =>
      let nested := if hasMark '-' (contentOf line) then least ≤ indentOf line
        else indent < indentOf line
      if nested then blockNode fuel (line :: rest) else some (.null, line :: rest)

/-- The data that starts at the first of the lines. -/
def blockNode : Nat → List (List Char) → Option (Node × List (List Char))
  | 0, _ => none
  | _, [] => none
  | fuel + 1, line :: rest =>
    let content := contentOf line
    let indent := indentOf line
    if hasMark '-' content then do
      let (items, lines) ← blockSeq fuel indent (line :: rest)
      return (.seq items, lines)
    else if hasMark '?' content || (blockKey? content).isSome then do
      let (fields, lines) ← blockMap fuel indent (line :: rest)
      return (.map fields, lines)
    else blockValue fuel indent (indent + 1) content rest

/-- The data behind a mark at `indent`. A mapping or sequence may start on the line of the mark. -/
def markedNode : Nat → (indent : Nat) → List Char → List (List Char) →
    Option (Node × List (List Char))
  | 0, _, _, _ => none
  | fuel + 1, indent, s, lines =>
    let inner := skipSpaces s
    if hasMark '-' inner || hasMark '?' inner || (blockKey? inner).isSome then
      let column := indent + 1 + (s.length - inner.length)
      blockNode fuel ((List.replicate column ' ' ++ inner) :: lines)
    else blockValue fuel indent (indent + 1) s lines

/-- The items of a sequence with a given indent. -/
def blockSeq : Nat → (indent : Nat) → List (List Char) →
    Option (List Node × List (List Char))
  | 0, _, _ => none
  | fuel + 1, indent, lines =>
    match skipEmpty lines with
    | [] => some ([], [])
    | line :: rest =>
      let content := contentOf line
      if indentOf line = indent ∧ hasMark '-' content then do
        let (node, lines) ← markedNode fuel indent (content.drop 1) rest
        let (items, lines) ← blockSeq fuel indent lines
        return (node :: items, lines)
      else some ([], line :: rest)

/-- The fields of a mapping with a given indent. -/
def blockMap : Nat → (indent : Nat) → List (List Char) →
    Option (List (String × Node) × List (List Char))
  | 0, _, _ => none
  | fuel + 1, indent, lines =>
    match skipEmpty lines with
    | [] => some ([], [])
    | line :: rest =>
      let content := contentOf line
      if indentOf line ≠ indent then some ([], line :: rest)
      else if hasMark '?' content then do
        let (keyNode, lines) ← blockValue fuel indent (indent + 1) (content.drop 1) rest
        let key ← keyNode.text?
        match skipEmpty lines with
        | [] => none
        | line :: rest =>
          let content := contentOf line
          if indentOf line = indent ∧ hasMark ':' content then do
            let (node, lines) ← markedNode fuel indent (content.drop 1) rest
            let (fields, lines) ← blockMap fuel indent lines
            return ((key, node) :: fields, lines)
          else none
      else if hasMark '-' content then some ([], line :: rest)
      else do
        let (key, s) ← blockKey? content
        let (node, lines) ← blockValue fuel indent indent s rest
        let (fields, lines) ← blockMap fuel indent lines
        return ((key, node) :: fields, lines)

end

/-- The lines of a text as characters. -/
def linesOf (s : String) : List (List Char) := (textLines s).map String.toList

/-- The tree of a text. A text without data is nothing at all. -/
def parse? (s : String) : Option Node := do
  match skipEmpty (linesOf s) with
  | [] => some .null
  | lines =>
    let (node, rest) ← blockNode (4 * s.length + 4) lines
    if (skipEmpty rest).isEmpty then some node else none

end Stepwise.Yaml
