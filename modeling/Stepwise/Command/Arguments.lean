import Stepwise.Command.Compile
import Stepwise.Command.Run

/-!
# Command-line arguments

The options that the words of a command line ask for. An option may be given by a long or a short
name; a word that is not an option is the input file, and of several the last one counts.

## Main definitions

* `Compile.Options.ofArgs`, `Run.Options.ofArgs`: the options of the two commands
-/

namespace Stepwise.Command

/-- What is wrong with a command line. -/
inductive ArgumentError where
  | unknown (option : String)
  | missingValue (option : String)
  | notANumber (text : String)
  deriving DecidableEq, Repr

/-- The wording of an argument error. -/
def ArgumentError.message : ArgumentError → String
  | .unknown option => "Unknown option " ++ option
  | .missingValue option => "Option " ++ option ++ " needs a value"
  | .notANumber text => "Not a number: " ++ text

/-- Whether a word is meant as an option. -/
def isOption (word : String) : Bool := word.startsWith "-"

/-- The error for the word at the end of a command line, where an option has no value. -/
def lastWordError (word : String) (withValue : List String) : ArgumentError :=
  if withValue.contains word then .missingValue word else .unknown word

namespace Compile

/-- The options with what the words ask for. -/
def Options.withArgs (o : Options) : List String → Except ArgumentError Options
  | [] => .ok o
  | "-d" :: rest | "--dump" :: rest => withArgs { o with listing := true } rest
  | "-s" :: rest | "--symbols" :: rest => withArgs { o with symbols := true } rest
  | "-o" :: path :: rest | "--output" :: path :: rest => withArgs { o with output := path } rest
  | "-e" :: path :: rest | "--externs" :: path :: rest =>
    withArgs { o with hosts := some path } rest
  | word :: rest =>
    if isOption word then .error (lastWordError word ["-o", "--output", "-e", "--externs"])
    else withArgs { o with input := word } rest

/-- The options that the words of a command line ask for. -/
def Options.ofArgs (args : List String) : Except ArgumentError Options :=
  Options.default.withArgs args

end Compile

namespace Run

/-- The options with what the words ask for. -/
def Options.withArgs (o : Options) : List String → Except ArgumentError Options
  | [] => .ok o
  | "-a" :: rest | "--dump-all" :: rest => withArgs { o with dumpAll := true } rest
  | "-s" :: rest | "--style" :: rest => withArgs { o with style := true } rest
  | "-d" :: path :: rest | "--dump-cfg" :: path :: rest =>
    withArgs { o with dumpFile := some path } rest
  | "--trace" :: path :: rest => withArgs { o with trace := some path } rest
  | "-t" :: count :: rest | "--tmax" :: count :: rest =>
    match count.toNat? with
    | some n => withArgs { o with maxSteps := n } rest
    | none => .error (.notANumber count)
  | word :: rest =>
    if isOption word then
      .error (lastWordError word ["-d", "--dump-cfg", "--trace", "-t", "--tmax"])
    else withArgs { o with input := word } rest

/-- The options that the words of a command line ask for. -/
def Options.ofArgs (args : List String) : Except ArgumentError Options :=
  Options.default.withArgs args

end Run

end Stepwise.Command
