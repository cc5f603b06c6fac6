import Respell.Captures
import Respell.Warning

/-!
# Templates

A template says what a matched word becomes.  An escape character with a digit stands for
the capture under that number, an escape character with anything else for that character,
and all other characters stand for themselves.
-/

namespace Respell

/-- A filled template and the warnings about what could not be filled in. -/
structure Rendering where
  text : String
  warnings : List Warning
  deriving DecidableEq

namespace Template

/-- A piece of a template. -/
inductive Piece where
  /-- A character that stands for itself. -/
  | char (c : Char)
  /-- The capture under a number. -/
  | capture (number : Nat)
  deriving DecidableEq, Repr

/-- The value of a decimal digit. -/
def digit? (c : Char) : Option Nat :=
  if c.isDigit then some (c.toNat - '0'.toNat) else none

/-- What an escaped character stands for. -/
def escaped (c : Char) : Piece :=
  match digit? c with
  | some number => .capture number
  | none => .char c

/-- The pieces of a template.  An escape character at its end stands for itself. -/
def pieces : List Char → List Piece
  | [] => []
  | [c] => [.char c]
  | c :: d :: rest =>
    if c = '%' then escaped d :: pieces rest else .char c :: pieces (d :: rest)

/-- The text that a piece becomes.  A capture that is not set becomes nothing. -/
def Piece.text (captures : Captures String) : Piece → String
  | .char c => c.toString
  | .capture number => (captures.get? number).getD ""

/-- The warning about a piece that cannot be filled in. -/
def Piece.warning? (captures : Captures String) : Piece → Option Warning
  | .char _ => none
  | .capture number =>
    if (captures.get? number).isSome then none else some (.captureNotSet number)

/-- The numbers of the captures that characters refer to, in order.  This looks for escapes
only, without cutting the characters into pieces. -/
def references : List Char → List Nat
  | [] => []
  | [_] => []
  | c :: d :: rest =>
    if c = '%' then (digit? d).toList ++ references rest else references (d :: rest)

/-- The numbers of the captures that a template refers to, in order. -/
def numbers (template : String) : List Nat := references template.toList

/-- Fills a template in. -/
def fill (template : String) (captures : Captures String) : Rendering :=
  let pieces := pieces template.toList
  ⟨String.join (pieces.map (·.text captures)), pieces.filterMap (·.warning? captures)⟩

end Template

end Respell
