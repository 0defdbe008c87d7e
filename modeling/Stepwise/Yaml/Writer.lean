import Stepwise.Yaml.Scalar

/-!
# Writing a data tree

A tree as YAML text in block style. A mapping is indented by two from the mapping around it, a
sequence starts at the indent of its key, and the first field of a mapping in a sequence stands on
the line of the dash. Sequences and mappings without content are written in brackets.

## Main definitions

* `Node.render`: the text of a tree
-/

namespace Stepwise.Yaml

/-- So many blanks. -/
def blanks (n : Nat) : String := String.ofList (List.replicate n ' ')

/-- The header of a literal block: an indentation mark if the text starts with a blank or an empty
line, and how its end is to be read. -/
def literalHeader (s : String) : String :=
  let cs := s.toList
  let indent := match cs with
    | ' ' :: _ | '\n' :: _ => "2"
    | _ => ""
  let chomp := match cs.reverse with
    | ['\n'] => "+"
    | '\n' :: '\n' :: _ => "+"
    | '\n' :: _ => ""
    | _ => "-"
  "|" ++ indent ++ chomp

/-- A text as a literal block whose lines are indented by so much. -/
def literalBlock (indent : Nat) (s : String) : String :=
  literalHeader s ++ "\n" ++
    String.join ((textLines s).map fun l => (if l.isEmpty then "" else blanks indent ++ l) ++ "\n")

/-- A text that stands on its line, with the line end. -/
def textScalar (indent : Nat) (s : String) : String :=
  match styleOf s with
  | .plain => s ++ "\n"
  | .single => singleQuoted s ++ "\n"
  | .double => doubleQuoted s ++ "\n"
  | .literal => literalBlock indent s

/-- Whether a key can stand on one line with its value. -/
def isSimpleKey (key : String) : Bool := !key.toList.any isBreak && key.utf8ByteSize ≤ 128

/-- A key on the line of its value. -/
def simpleKey (key : String) : String :=
  match styleOf key with
  | .plain => key
  | .single => singleQuoted key
  | .double | .literal => doubleQuoted key

/-- Data that has a line of its own, with the line end. -/
def Node.scalarLine (indent : Nat) : Node → String
  | .null => "null\n"
  | .bool b => Value.truthName b ++ "\n"
  | .int n => toString n ++ "\n"
  | .float x => Decimal.stored.write x ++ "\n"
  | .str s => textScalar indent s
  | .seq _ => "[]\n"
  | .map _ => "\x7b\x7d\n"
  | .tagged tag _ => "!" ++ tag ++ "\n"

/-- A field, with its value behind its key or, if the key is long, behind a mark. -/
def fieldText (indent : Nat) (key inline marked : String) : String :=
  if isSimpleKey key then simpleKey key ++ ":" ++ inline
  else "? " ++ textScalar (indent + 2) key ++ blanks indent ++ ":" ++ marked

mutual

/-- What follows a key, from the blank or line end after it. The mapping around it is indented by
`indent`. -/
def Node.afterKey (indent : Nat) : Node → String
  | .seq (item :: rest) => "\n" ++ blanks indent ++ seqText indent (item :: rest)
  | .map (field :: rest) => "\n" ++ blanks (indent + 2) ++ mapText (indent + 2) (field :: rest)
  | .tagged tag node => " !" ++ tag ++ node.afterKey indent
  | node => " " ++ node.scalarLine (indent + 2)

/-- What follows a dash or another mark at `indent`, from the blank or line end after it. -/
def Node.afterMark (indent : Nat) : Node → String
  | .seq (item :: rest) => " " ++ seqText (indent + 2) (item :: rest)
  | .map (field :: rest) => " " ++ mapText (indent + 2) (field :: rest)
  | .tagged tag node => " !" ++ tag ++ node.afterKey indent
  | node => " " ++ node.scalarLine (indent + 2)

/-- The items of a sequence. The first line is already indented. -/
def seqText (indent : Nat) : List Node → String
  | [] => ""
  | [item] => "-" ++ item.afterMark indent
  | item :: rest => "-" ++ item.afterMark indent ++ blanks indent ++ seqText indent rest

/-- The fields of a mapping. The first line is already indented. -/
def mapText (indent : Nat) : List (String × Node) → String
  | [] => ""
  | [(key, node)] => fieldText indent key (node.afterKey indent) (node.afterMark indent)
  | (key, node) :: rest =>
    fieldText indent key (node.afterKey indent) (node.afterMark indent) ++ blanks indent ++
      mapText indent rest

end

/-- The text of a tree. -/
def Node.render : Node → String
  | .seq (item :: rest) => seqText 0 (item :: rest)
  | .map (field :: rest) => mapText 0 (field :: rest)
  | .tagged tag node => "!" ++ tag ++ node.afterKey 0
  | node => node.scalarLine 0

end Stepwise.Yaml
