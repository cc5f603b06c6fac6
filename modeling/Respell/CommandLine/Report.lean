import Respell.CommandLine.Options
import Respell.Rule
import Respell.Text.Line

/-!
# What the program reports

Each line of the input is a word.  A word that the rule matches is printed respelled, and
one that it does not match is passed over in silence.  All words are treated alike: what
the program prints for a line depends on that line and the options alone.
-/

namespace Respell.CommandLine

/-- How the program ends. -/
inductive Status where
  /-- Some word was respelled. -/
  | matched
  /-- No word was respelled. -/
  | unmatched
  /-- The arguments or the input could not be read. -/
  | failed
  deriving DecidableEq, Repr

/-- The exit code of the program. -/
def Status.code : Status → UInt8
  | matched => 0
  | unmatched => 1
  | failed => 2

/-- What the program prints, line by line, and how it ends. -/
structure Report where
  output : List String
  diagnostics : List String
  status : Status
  deriving DecidableEq

/-- The text on the standard output, where each line has its end. -/
def Report.standardOutput (r : Report) : String := .join (r.output.map (· ++ "\n"))

/-- A warning as it is printed. -/
def warningLine (text : String) : String := "warning: " ++ text

/-- An error as it is printed. -/
def errorLine (text : String) : String := "error: " ++ text

/-- The error when a line of the input is not text. -/
def unreadableInput : String := "failed to read stdin: stream did not contain valid UTF-8"

/-- The warning about a member that its class has already. -/
def Addition.rejection (a : Addition) : String :=
  s!"member {Text.quote a.text} of <{a.className}> not added"

/-- A rule with more class members, and the warnings about those not added. -/
def extend (rule : Rule Unit) : List Addition → Rule Unit × List String
  | [] => (rule, [])
  | a :: rest =>
    let (insertion, rule) := rule.extendClass (Utf8.encode a.className) a.member
    let (rule, warnings) := extend rule rest
    match insertion with
    | .added => (rule, warnings)
    | .duplicate => (rule, a.rejection :: warnings)

/-- The rule that the options describe, and the warnings about the options. -/
def ruleOf (options : Options) : Rule Unit × List String :=
  let (rule, rejections) :=
    extend (.ofSource (Utf8.encode options.pattern) options.template ()) options.additions
  (rule, rejections ++ rule.warnings.map Warning.message)

/-- The report on the lines of an input. -/
def reportLines (rule : Rule Unit) : List Bytes → Report
  | [] => ⟨[], [], .unmatched⟩
  | line :: rest =>
    match Utf8.decode? line with
    | none => ⟨[], [errorLine unreadableInput], .failed⟩
    | some word =>
      let more := reportLines rule rest
      match rule.respell? line with
      | none => more
      | some rendering =>
        { output := rendering.text :: more.output
          diagnostics :=
            rendering.warnings.map (fun w => warningLine s!"{word}: {w.message}") ++
              more.diagnostics
          status := if more.status = .failed then .failed else .matched }

/-- The report of the program on its arguments and its input. -/
def report (arguments : List String) (input : Bytes) : Report :=
  match Options.ofArguments arguments with
  | .error e => ⟨[], [errorLine e.message], .failed⟩
  | .ok options =>
    let (rule, warnings) := ruleOf options
    let r := reportLines rule (Text.lines input)
    { r with diagnostics := warnings.map warningLine ++ r.diagnostics }

end Respell.CommandLine
