import Respell.Captures
import Respell.Text.Casing

/-!
# Paths

A search follows paths.  A path stands somewhere in the word, with what it has given out
and captured on the way there.  Of two paths the one that leaves less of the word unread
is the better one.
-/

namespace Respell

/-- A place in a word together with how it was reached: the bytes after it, the bytes
given out on the way with the last one first, and the captures. -/
structure Path where
  rest : Bytes
  given : Bytes
  captures : Captures Bytes
  deriving DecidableEq

namespace Path

/-- In front of a word. -/
def start (word : Bytes) : Path := ⟨word, [], .none⟩

/-- How much of the word is unread. -/
def left (p : Path) : Nat := p.rest.length

/-- The bytes given out on the way, in their order. -/
def output (p : Path) : Bytes := p.given.reverse

/-- After `n` more bytes of the word, for which a text is given out. -/
def advance (p : Path) (n : Nat) (text : Bytes) : Path :=
  { p with rest := p.rest.drop n, given := text.reverse ++ p.given }

/-- After one more byte of the word that satisfies a condition, given out as it is. -/
def copyByte? (accepts : UInt8 → Bool) (p : Path) : Option Path :=
  match p.rest with
  | [] => none
  | b :: rest =>
    if accepts b then some { p with rest := rest, given := b :: p.given } else none

/-- After one more copy of a text in any case, for which its replacement is given out. -/
def replaceText? (text replacement : Bytes) (p : Path) : Option Path :=
  if Casing.folded.leads text p.rest then some (p.advance text.length replacement) else none

/-- The paths after 0, 1, 2, … repetitions of a step, as far as it goes and at most up to
`n` repetitions. -/
def iterates (step? : Path → Option Path) : Nat → Path → List Path
  | 0, p => [p]
  | n + 1, p =>
    match step? p with
    | none => [p]
    | some q => p :: iterates step? n q

/-- The end of a branch that was entered when `entry` had been given out.  What the branch
has given out since is replaced, if the branch says so, and captured. -/
def leaveBranch (p : Path) (entry : Bytes) (number : Nat) (replacement : Option Bytes) :
    Path :=
  let text := replacement.getD (p.given.take (p.given.length - entry.length)).reverse
  { p with given := text.reverse ++ entry, captures := p.captures.put number text }

end Path

/-- Of two possible results the one that leaves less unread, and the first one when they
leave equally much. -/
def closest {α : Type} (left : α → Nat) : Option α → Option α → Option α
  | none, b => b
  | some a, none => some a
  | some a, some b => if left b < left a then some b else some a

end Respell
