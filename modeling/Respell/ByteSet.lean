import Respell.Text.Byte

/-!
# Sets of bytes

A set of bytes is a table of 256 bits.  Insertion always takes both cases of an ASCII
letter, so that a set built by the operations of this module cannot tell the two cases
apart.
-/

namespace Respell

/-- A set of bytes; bit `b` of the table says whether the byte `b` belongs to it. -/
structure ByteSet where
  table : BitVec 256
  deriving DecidableEq

namespace ByteSet

/-- The set without members. -/
def empty : ByteSet := ⟨0#256⟩

/-- The set of all bytes. -/
def full : ByteSet := ⟨BitVec.allOnes 256⟩

instance : EmptyCollection ByteSet := ⟨empty⟩

/-- The byte belongs to the set. -/
def contains (s : ByteSet) (b : UInt8) : Bool :=
  s.table.getLsbD b.toNat

instance : Membership UInt8 ByteSet := ⟨fun s b => s.contains b = true⟩

instance (b : UInt8) (s : ByteSet) : Decidable (b ∈ s) :=
  inferInstanceAs (Decidable (s.contains b = true))

/-- The set with one more byte, in this case only. -/
def insert (s : ByteSet) (b : UInt8) : ByteSet :=
  ⟨s.table ||| BitVec.twoPow 256 b.toNat⟩

/-- The set with a byte in both cases. -/
def insertBothCases (s : ByteSet) (b : UInt8) : ByteSet :=
  ((s.insert b).insert (Byte.lower b)).insert (Byte.upper b)

/-- The set with all bytes from `low` to `high`, each in both cases. -/
def insertBetween (s : ByteSet) (low high : UInt8) : ByteSet :=
  (Byte.between low high).foldl insertBothCases s

/-- The set of the bytes that do not belong to `s`. -/
def complement (s : ByteSet) : ByteSet := ⟨~~~s.table⟩

/-- The members in ascending order. -/
def toList (s : ByteSet) : Bytes :=
  (Byte.between 0 255).filter s.contains

/-- The number of members. -/
def size (s : ByteSet) : Nat := s.toList.length

/-- Intervals in ascending order with one more byte in front of them, which joins the
first interval if it lies right below it. -/
def consInterval (b : UInt8) : List (UInt8 × UInt8) → List (UInt8 × UInt8)
  | [] => [(b, b)]
  | (low, high) :: more =>
    if b + 1 = low then (b, high) :: more else (b, b) :: (low, high) :: more

/-- The longest intervals of members in ascending order, each by its two ends. -/
def intervals (s : ByteSet) : List (UInt8 × UInt8) := s.toList.foldr consInterval []

/-- A set is shown by its size. -/
instance : ToString ByteSet := ⟨fun s => s!"ByteSet({s.size} of 256)"⟩

end ByteSet

end Respell
