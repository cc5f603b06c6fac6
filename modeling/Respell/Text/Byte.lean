/-!
# Bytes

Patterns and words are compared byte by byte.  A text is the list of the bytes of its
UTF-8 form, and the only notion of case is that of the ASCII letters.
-/

namespace Respell

/-- A text as a list of bytes. -/
abbrev Bytes := List UInt8

namespace Byte

/-- An ASCII capital letter goes to its small letter, any other byte to itself. -/
def lower (b : UInt8) : UInt8 :=
  if 0x41 ≤ b ∧ b ≤ 0x5A then b + 0x20 else b

/-- An ASCII small letter goes to its capital letter, any other byte to itself. -/
def upper (b : UInt8) : UInt8 :=
  if 0x61 ≤ b ∧ b ≤ 0x7A then b - 0x20 else b

/-- The byte is one of the ASCII digits. -/
def isDigit (b : UInt8) : Bool :=
  0x30 ≤ b && b ≤ 0x39

/-- The bytes from `low` to `high`, both included; none when `high` is below `low`. -/
def between (low high : UInt8) : Bytes :=
  (List.range' low.toNat (high.toNat + 1 - low.toNat)).map UInt8.ofNat

end Byte

end Respell
