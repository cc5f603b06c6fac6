import Respell.Match
import Respell.Reading
import Respell.Template

/-!
# Rules

A rule respells the words that its pattern matches from end to end: it fills its template
in with what the match captures.  A rule has classes of its own, which may be extended
after the pattern was read.
-/

namespace Respell

/-- A pattern and a template, with the classes of the pattern and the warnings about both.
The tag is the caller's.  A rule without a pattern matches the word without bytes only. -/
structure Rule (τ : Type) where
  pattern : Option Pattern
  template : String
  tag : τ
  lexicon : Lexicon
  warnings : List Warning

namespace Rule

variable {τ : Type}

/-- The warnings about a template that is filled in by a pattern with the given number of
groups. -/
def templateWarnings (groups : Nat) (template : String) : List Warning :=
  ((Template.numbers template).filter (groups < ·)).map .noSuchGroup

/-- The rule with the pattern of the given source. -/
def ofSource (source : Bytes) (template : String) (tag : τ) : Rule τ :=
  let reading := Reading.ofSource source .empty
  { pattern := if reading.pattern.isEmpty then none else some reading.pattern
    template := template
    tag := tag
    lexicon := reading.lexicon
    warnings := reading.warnings ++ templateWarnings reading.pattern.groups template }

/-- The rule that matches every word. -/
def anyWord (template : String) (tag : τ) : Rule τ :=
  { pattern := some .anyWord
    template := template
    tag := tag
    lexicon := .empty
    warnings := [] }

/-- The rule after a member was offered to one of its classes. -/
def extendClass (r : Rule τ) (name : Bytes) (m : Member) : Insertion × Rule τ :=
  let (insertion, lexicon) := r.lexicon.add name m
  (insertion, { r with lexicon := lexicon })

/-- The rule with another comparison in one of its classes, which is created if there is
none of that name. -/
def setCasing (r : Rule τ) (name : Bytes) (casing : Casing) : Rule τ :=
  { r with lexicon := (r.lexicon.intern name).2.setCasing name casing }

/-- The match of the pattern with a whole word. -/
def wholeMatch? (r : Rule τ) (word : Bytes) : Option Match :=
  (r.pattern.getD .empty).wholeMatch? r.lexicon word

/-- What a word becomes, if the rule matches it. -/
def respell? (r : Rule τ) (word : Bytes) : Option Rendering :=
  (r.wholeMatch? word).map fun m => Template.fill r.template m.captures

end Rule

end Respell
