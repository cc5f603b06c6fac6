/-!
# Warnings

Nothing about a pattern or a template is an error.  What had to be repaired while a
pattern was read, or left out while a template was filled, is told by a warning.
-/

namespace Respell

/-- A problem that was met and got over.  Positions count bytes from the start of the
pattern. -/
inductive Warning where
  /-- The group opened at a position is not closed. -/
  | unclosedGroup (pos : Nat)
  /-- The set opened at a position is not closed. -/
  | unclosedSet (pos : Nat)
  /-- The class reference opened at a position is not closed. -/
  | unclosedReference (pos : Nat)
  /-- The brace at a position does not begin a count. -/
  | malformedCount (pos : Nat)
  /-- The quantifier at a position follows nothing that can be repeated. -/
  | strayQuantifier (pos : Nat)
  /-- The escape character at a position ends the pattern. -/
  | finalEscape (pos : Nat)
  /-- The group opened at a position has a number beyond the captures. -/
  | groupBeyondCaptures (number pos : Nat)
  /-- A template refers to a group that its pattern does not have. -/
  | noSuchGroup (index : Nat)
  /-- A template refers to a group that took no part in the match. -/
  | captureNotSet (index : Nat)
  deriving DecidableEq, Repr

namespace Warning

/-- The warning as shown to the user. -/
def message : Warning → String
  | unclosedGroup pos => s!"unterminated group opened at {pos}"
  | unclosedSet pos => s!"unterminated character set opened at {pos}"
  | unclosedReference pos => s!"unterminated class reference opened at {pos}"
  | malformedCount pos => s!"malformed repetition count at {pos}, taken literally"
  | strayQuantifier pos =>
    s!"quantifier at {pos} has nothing to repeat, taken literally"
  | finalEscape pos => s!"pattern ends with an escape character at {pos}"
  | groupBeyondCaptures number pos =>
    s!"group {number} opened at {pos} has no capture slot"
  | noSuchGroup index =>
    s!"replacement refers to group {index}, which the pattern does not define"
  | captureNotSet index => s!"replacement refers to group {index}, which did not match"

end Warning

end Respell
