import Respell.ByteSet
import Respell.Source.Scan

/-!
# Sets in a pattern

A set is written as a list of bytes and intervals in square brackets, with a caret in
front for the complement.  The closing bracket is an ordinary byte when it comes first.
-/

namespace Respell

/-- What is written at one place of a set. -/
inductive SetItem where
  /-- A single byte. -/
  | single (b : UInt8)
  /-- The bytes between two ends, which may come in either order. -/
  | interval (one other : UInt8)
  deriving DecidableEq, Repr

/-- The set with the bytes of an item, each in both cases. -/
def ByteSet.insertItem (s : ByteSet) : SetItem → ByteSet
  | .single b => s.insertBothCases b
  | .interval one other => s.insertBetween (min one other) (max one other)

/-- The set that a list of items describes, or its complement. -/
def ByteSet.ofItems (negated : Bool) (items : List SetItem) : ByteSet :=
  let s := items.foldl insertItem empty
  if negated then s.complement else s

namespace Source

/-- One item of a set, which begins with the byte `b`.  A range mark makes an interval
unless the set ends right after it. -/
def setItem (total : Nat) (b : UInt8) (rest : Bytes) : Scan SetItem :=
  let one := textByte total b rest
  match one.rest with
  | mark :: c :: rest =>
    if mark = Mark.range ∧ c ≠ Mark.setClose then
      let other := textByte total c rest
      ⟨.interval one.value other.value, other.rest, one.warnings ++ other.warnings⟩
    else ⟨.single one.value, mark :: c :: rest, one.warnings⟩
  | rest => ⟨.single one.value, rest, one.warnings⟩

theorem length_setItem_le (total : Nat) (b : UInt8) (rest : Bytes) :
  (setItem total b rest).rest.length ≤ rest.length
  := by
  have h := length_textByte_le total b rest
  unfold setItem
  dsimp only
  split
  · next mark c rest' e =>
    rw [e] at h
    split
    · have := length_textByte_le total c rest'
      simp only [List.length_cons] at h ⊢
      omega
    · apply h
  · apply h

/-- The items of a set up to its end.  The set was opened at the position `pos`; `first`
says that no item was read yet. -/
def setItems (total pos : Nat) (first : Bool) : Bytes → Scan (List SetItem)
  | [] => ⟨[], [], [.unclosedSet pos]⟩
  | b :: rest =>
    if b = Mark.setClose ∧ !first then ⟨[], rest, []⟩
    else
      let item := setItem total b rest
      let more := setItems total pos false item.rest
      ⟨item.value :: more.value, more.rest, item.warnings ++ more.warnings⟩
  termination_by s => s.length
  decreasing_by apply Nat.lt_succ_of_le (length_setItem_le total b rest)

theorem length_setItems_le (total pos : Nat) (first : Bool) (s : Bytes) :
  (setItems total pos first s).rest.length ≤ s.length
  := by
  fun_induction setItems total pos first s with
  | case1 => apply Nat.le_refl
  | case2 => apply Nat.le_succ
  | case3 first b rest h item more ih =>
    apply Nat.le_succ_of_le
    apply Nat.le_trans ih
    apply length_setItem_le

/-- A set that was opened at the position `pos`, right in front of the given bytes. -/
def set (total pos : Nat) (s : Bytes) : Scan ByteSet :=
  let negated := s.head? = some Mark.negate
  let items := setItems total pos true (if negated then s.tail else s)
  ⟨.ofItems negated items.value, items.rest, items.warnings⟩

theorem length_set_le (total pos : Nat) (s : Bytes) :
  (set total pos s).rest.length ≤ s.length
  := by
  apply Nat.le_trans (length_setItems_le total pos true _)
  split
  · simp
  · apply Nat.le_refl

end Source

end Respell
