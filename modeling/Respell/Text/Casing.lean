import Respell.Text.Byte

/-!
# Comparing texts with or without case

A `Casing` says whether the case of the ASCII letters counts.  Two texts are the same
under it when their bytes have equal keys one by one, and a text leads another one when
it is the same as the beginning of equal length.
-/

namespace Respell

/-- Whether the case of ASCII letters counts in a comparison. -/
inductive Casing where
  /-- Bytes are compared as they are. -/
  | exact
  /-- A letter is the same as its other case. -/
  | folded
  deriving DecidableEq, Repr

namespace Casing

/-- The representative that stands for a byte in comparisons. -/
def key : Casing → UInt8 → UInt8
  | exact => id
  | folded => Byte.lower

/-- The two texts have the same keys, position by position. -/
def same (casing : Casing) (s t : Bytes) : Bool :=
  s.map casing.key == t.map casing.key

/-- The text `s` is the same as the beginning of `t` that is as long as `s`. -/
def leads (casing : Casing) (s t : Bytes) : Bool :=
  casing.same s (t.take s.length)

theorem same_iff {casing : Casing} {s t : Bytes} :
  casing.same s t = true ↔ s.map casing.key = t.map casing.key
  := beq_iff_eq

/-- A text leads another one when its keys are a prefix of those of the other one. -/
theorem leads_iff {casing : Casing} {s t : Bytes} :
  casing.leads s t = true ↔ s.map casing.key <+: t.map casing.key
  := by
  rw [leads, same_iff, List.map_take, List.prefix_iff_eq_take, List.length_map]

theorem length_eq_of_same {casing : Casing} {s t : Bytes} (h : casing.same s t = true) :
  s.length = t.length
  := by
  have := congrArg List.length (eq_of_beq h)
  rwa [List.length_map, List.length_map] at this

theorem length_le_of_leads {casing : Casing} {s t : Bytes} (h : casing.leads s t = true) :
  s.length ≤ t.length
  := by
  have := (leads_iff.mp h).length_le
  rwa [List.length_map, List.length_map] at this

/-- A text leads the texts that begin with a copy of it. -/
theorem leads_append_of_same {casing : Casing} {s u : Bytes} (h : casing.same s u = true)
    (v : Bytes) :
  casing.leads s (u ++ v) = true
  := by
  rw [leads, length_eq_of_same h, List.take_left]
  apply h

end Casing

end Respell
