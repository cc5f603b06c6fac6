import Respell.Search.Run
import Respell.Text.Utf8

/-!
# Matches

A match of a pattern with a word is the path that takes the most of the word, with its
output and its captures as text.
-/

namespace Respell

/-- How a pattern matches the front of a word: how many bytes it takes, what it gives out
for them, and what its groups capture. -/
structure Match where
  length : Nat
  output : String
  captures : Captures String
  deriving DecidableEq

/-- The match that a complete path through the front of a word makes.  Number 0 captures
the whole output. -/
def Match.ofPath (word : Bytes) (p : Path) : Match :=
  let output := Utf8.decode p.output
  ⟨word.length - p.left, output,
    Captures.put (p.captures.map (·.map Utf8.decode)) 0 output⟩

namespace Pattern

/-- The path along the pattern that takes the most of the word. -/
def longestPath? (pattern : Pattern) (lexicon : Lexicon) (word : Bytes) : Option Path :=
  (Search.untilWordEnd lexicon).longest? pattern.nodes word

/-- The match that takes the most of the word, whether or not it takes all. -/
def longestMatch? (pattern : Pattern) (lexicon : Lexicon) (word : Bytes) : Option Match :=
  (pattern.longestPath? lexicon word).map (Match.ofPath word)

/-- The match that takes the most of the word, if it takes all. -/
def wholeMatch? (pattern : Pattern) (lexicon : Lexicon) (word : Bytes) : Option Match :=
  (pattern.longestMatch? lexicon word).filter (·.length = word.length)

end Pattern

end Respell
