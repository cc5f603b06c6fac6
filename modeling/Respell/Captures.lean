/-!
# Captures

A match has one place for each decimal digit where the text of a group may be kept.
-/

namespace Respell

/-- The number of captures of a match. -/
def captureCount : Nat := 10

/-- What was captured under each number, if anything was. -/
abbrev Captures (α : Type) := Vector (Option α) captureCount

namespace Captures

/-- Nothing is captured. -/
def none {α : Type} : Captures α := Vector.replicate captureCount Option.none

/-- What is captured under a number.  Numbers without a place capture nothing. -/
def get? {α : Type} (captures : Captures α) (number : Nat) : Option α :=
  captures[number]?.join

/-- The same with something captured under a number, if there is a place for it. -/
def put {α : Type} (captures : Captures α) (number : Nat) (a : α) : Captures α :=
  captures.setIfInBounds number (some a)

theorem get?_none {α : Type} (number : Nat) :
  (none : Captures α).get? number = Option.none
  := by
  rw [get?, none, Vector.getElem?_replicate]
  split
  · rfl
  · rfl

theorem get?_put {α : Type} (captures : Captures α) (n : Nat) (a : α) (number : Nat) :
  (captures.put n a).get? number
    = if n = number ∧ n < captureCount then some a else captures.get? number
  := by
  rw [get?, put, Vector.getElem?_setIfInBounds]
  by_cases h : n = number
  · subst h
    by_cases hn : n < captureCount
    · simp [hn]
    · simp [hn, get?]
  · simp [h, get?]

/-- A function of the texts changes what is captured under each number. -/
theorem get?_map {α β : Type} (f : α → β) (captures : Captures α) (number : Nat) :
  get? (captures.map (·.map f)) number = (captures.get? number).map f
  := by
  rw [get?, get?, Vector.getElem?_map]
  cases captures[number]? with
  | none => rfl
  | some a => rfl

end Captures

end Respell
