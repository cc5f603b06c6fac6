import Respell.Pattern
import Respell.Source.Reader

/-!
# Reading the source of a pattern

Every text is the source of a pattern.  What is malformed in it is repaired, and a warning
tells where.  The classes that the source mentions exist after it was read.
-/

namespace Respell

/-- A pattern as it was understood, with the warnings about its source and the classes
that exist after it was read. -/
structure Reading where
  pattern : Pattern
  warnings : List Warning
  lexicon : Lexicon

/-- Reads the source of a pattern, which may refer to the classes of a lexicon. -/
def Reading.ofSource (source : Bytes) (lexicon : Lexicon) : Reading :=
  let r := (Source.Reader.start lexicon).read source.length source
  ⟨⟨r.chain, r.groups⟩, r.warnings, r.lexicon⟩

end Respell
