import Respell.Text.Hidden

/-!
# Quoted text

A quoted text stands between double quotes.  A backslash introduces what cannot stand
there as it is: the quote, the backslash itself, line ends and the like by a letter, and
other characters that do not show by their code points.
-/

namespace Respell.Text

/-- A character given by its code point. -/
def escapeByCode (c : Char) : List Char :=
  ['\\', 'u', '\x7b'] ++ Nat.toDigits 16 c.toNat ++ ['\x7d']

/-- A character as it stands between quotes. -/
def quotedChar (c : Char) : List Char :=
  if c = '"' ∨ c = '\\' then ['\\', c]
  else if c = '\x00' then ['\\', '0']
  else if c = '\t' then ['\\', 't']
  else if c = '\n' then ['\\', 'n']
  else if c = '\r' then ['\\', 'r']
  else if isHidden c then escapeByCode c
  else [c]

/-- The text between quotes. -/
def quote (s : String) : String :=
  .ofList ('"' :: s.toList.flatMap quotedChar ++ ['"'])

end Respell.Text
