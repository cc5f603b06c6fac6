import Respell.Text.Byte

/-!
# Lines

A text is cut into lines at its newlines.  What comes after the last newline is a line
only if there is something, and carriage returns at the end of a line do not belong to it.
-/

namespace Respell.Text

/-- The byte that ends a line. -/
def newline : UInt8 := '\n'.toUInt8

/-- A byte that is ignored at the end of a line. -/
def carriageReturn : UInt8 := '\r'.toUInt8

/-- The text without the carriage returns at its end. -/
def trimEnd (s : Bytes) : Bytes :=
  (s.reverse.dropWhile (· == carriageReturn)).reverse

/-- The lines of a text, without their ends. -/
def lines : Bytes → List Bytes
  | [] => []
  | b :: s =>
    trimEnd ((b :: s).takeWhile (· != newline)) ::
      lines ((b :: s).dropWhile (· != newline)).tail
  termination_by s => s.length
  decreasing_by
    have := ((b :: s).dropWhile_suffix (· != newline)).length_le
    simp only [List.length_tail, List.length_cons] at this ⊢
    omega

end Respell.Text
