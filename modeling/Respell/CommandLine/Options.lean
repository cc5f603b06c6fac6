import Respell.NamedClass
import Respell.Text.Quoted
import Respell.Text.Utf8

/-!
# Options of the command line

The options give a pattern, a template and members for the classes of the pattern.  Each
option is followed by its value; the last pattern and the last template count, while all
members do.
-/

namespace Respell.CommandLine

/-- What is wrong with the arguments. -/
inductive UsageError where
  /-- An option is the last argument. -/
  | missingValue (option : String)
  /-- An argument is not an option. -/
  | unexpectedArgument (argument : String)
  /-- The value of a member option has no class. -/
  | malformedMember (value : String)
  /-- No pattern is given. -/
  | missingPattern
  deriving DecidableEq, Repr

/-- The error as shown to the user. -/
def UsageError.message : UsageError → String
  | missingValue option => s!"missing value after {option}"
  | unexpectedArgument argument => s!"unexpected argument: {argument}"
  | malformedMember value => s!"expected <class>=<member>, got {Text.quote value}"
  | missingPattern => "expected -E <pattern>"

/-- A member that is added to a class. -/
structure Addition where
  className : String
  text : String
  replacement : Option String
  deriving DecidableEq, Repr

/-- The member itself. -/
def Addition.member (a : Addition) : Member :=
  .ofText (Utf8.encode a.text) (a.replacement.map Utf8.encode)

/-- What the arguments ask for. -/
structure Options where
  pattern : String
  template : String
  additions : List Addition
  deriving DecidableEq, Repr

/-- The template that is used when none is given: all that the pattern gives out. -/
def defaultTemplate : String := "%0"

/-- The characters before and after the first separator, if there is one. -/
def splitFirst? (separator : Char) (s : List Char) : Option (List Char × List Char) :=
  match s.dropWhile (· != separator) with
  | [] => none
  | _ :: rest => some (s.takeWhile (· != separator), rest)

/-- The addition written as the name of a class, an equals sign and a text, which a bar
separates from its replacement if it has one. -/
def Addition.ofString? (value : String) : Option Addition :=
  (splitFirst? '=' value.toList).map fun (name, rest) =>
    match splitFirst? '|' rest with
    | some (text, replacement) =>
      ⟨.ofList name, .ofList text, some (.ofList replacement)⟩
    | none => ⟨.ofList name, .ofList rest, none⟩

/-- The values of the options that were read so far. -/
structure Given where
  pattern : Option String
  template : Option String
  additions : List Addition

/-- Reads the arguments that are left.  The first error in their order is reported. -/
def readArguments (given : Given) : List String → Except UsageError Given
  | [] => .ok given
  | [argument] =>
    if argument ∈ ["-E", "-r", "-c"] then .error (.missingValue argument)
    else .error (.unexpectedArgument argument)
  | argument :: value :: rest =>
    if argument = "-E" then readArguments { given with pattern := some value } rest
    else if argument = "-r" then readArguments { given with template := some value } rest
    else if argument = "-c" then
      match Addition.ofString? value with
      | some a => readArguments { given with additions := given.additions ++ [a] } rest
      | none => .error (.malformedMember value)
    else .error (.unexpectedArgument argument)

/-- The options that the arguments give.  That no pattern is given is noticed last. -/
def Options.ofArguments (arguments : List String) : Except UsageError Options :=
  match readArguments ⟨none, none, []⟩ arguments with
  | .error e => .error e
  | .ok given =>
    match given.pattern with
    | none => .error .missingPattern
    | some pattern => .ok ⟨pattern, given.template.getD defaultTemplate, given.additions⟩

end Respell.CommandLine
