import Respell.Source.Mark
import Respell.Text.Byte
import Respell.Warning

/-!
# Scans

Patterns are read from the front of a list of bytes.  A scan gives what was read, what is
left and the warnings on the way.  Since what is left is always the end of the pattern,
its length gives the position.  The scans of this module read escaped text.
-/

namespace Respell.Source

/-- What was read from the front of some bytes, and what is left of them. -/
structure Scan (α : Type) where
  value : α
  rest : Bytes
  warnings : List Warning

/-- The position where `rest` begins in a pattern of `total` bytes that ends with it. -/
def position (total : Nat) (rest : Bytes) : Nat := total - rest.length

/-- What follows the mark, if the bytes start with it. -/
def after? (mark : UInt8) : Bytes → Option Bytes
  | [] => none
  | b :: rest => if b = mark then some rest else none

theorem length_of_after? {mark : UInt8} {s rest : Bytes} (h : after? mark s = some rest) :
  rest.length < s.length
  := by
  cases s with
  | nil => cases h
  | cons b s =>
    simp only [after?] at h
    split at h
    · cases h
      apply Nat.lt_succ_self
    · cases h

/-- One byte of text, which begins with the byte `b`: an escape gives the byte after it,
or itself at the end of the pattern. -/
def textByte (total : Nat) (b : UInt8) (rest : Bytes) : Scan UInt8 :=
  if b = Mark.escape then
    match rest with
    | c :: rest => ⟨c, rest, []⟩
    | [] => ⟨b, [], [.finalEscape (position total [b])]⟩
  else ⟨b, rest, []⟩

theorem length_textByte_le (total : Nat) (b : UInt8) (rest : Bytes) :
  (textByte total b rest).rest.length ≤ rest.length
  := by
  unfold textByte
  split
  · split
    · apply Nat.le_succ
    · apply Nat.le_refl
  · apply Nat.le_refl

/-- The text up to the first byte, outside escapes, at which it stops. -/
def textUntil (total : Nat) (stops : UInt8 → Bool) : Bytes → Scan Bytes
  | [] => ⟨[], [], []⟩
  | b :: rest =>
    if stops b then ⟨[], b :: rest, []⟩
    else
      let first := textByte total b rest
      let more := textUntil total stops first.rest
      ⟨first.value :: more.value, more.rest, first.warnings ++ more.warnings⟩
  termination_by s => s.length
  decreasing_by apply Nat.lt_succ_of_le (length_textByte_le total b rest)

theorem length_textUntil_le (total : Nat) (stops : UInt8 → Bool) (s : Bytes) :
  (textUntil total stops s).rest.length ≤ s.length
  := by
  fun_induction textUntil total stops s with
  | case1 => apply Nat.le_refl
  | case2 => apply Nat.le_refl
  | case3 b rest h first more ih =>
    apply Nat.le_succ_of_le
    apply Nat.le_trans ih
    apply length_textByte_le

/-- The replacement that a replace mark begins, if the bytes start with that mark. -/
def replacement (total : Nat) (stops : UInt8 → Bool) : Bytes → Scan (Option Bytes)
  | [] => ⟨none, [], []⟩
  | b :: rest =>
    if b = Mark.replace then
      let text := textUntil total stops rest
      ⟨some text.value, text.rest, text.warnings⟩
    else ⟨none, b :: rest, []⟩

theorem length_replacement_le (total : Nat) (stops : UInt8 → Bool) (s : Bytes) :
  (replacement total stops s).rest.length ≤ s.length
  := by
  unfold replacement
  split
  · apply Nat.le_refl
  · split
    · apply Nat.le_succ_of_le
      apply length_textUntil_le
    · apply Nat.le_refl

end Respell.Source
