/-!
# Bounds of repetition

How often a node of a pattern may be repeated.  A limit is never below the number of
repetitions that are needed.
-/

namespace Respell

/-- At least `least` times, and at most `most` times if there is such a limit. -/
structure Reps where
  least : Nat
  most : Option Nat
  least_le : ∀ m ∈ most, least ≤ m
  deriving DecidableEq, Repr

namespace Reps

/-- Exactly once. -/
def once : Reps := ⟨1, some 1, by decide⟩

/-- At most once. -/
def optional : Reps := ⟨0, some 1, by decide⟩

/-- Any number of times. -/
def anyNumber : Reps := ⟨0, none, by decide⟩

/-- Once or more often. -/
def oneOrMore : Reps := ⟨1, none, by decide⟩

/-- At least `least` times and at most `most` times, where a limit below `least` is
raised to it. -/
def between (least : Nat) (most : Option Nat) : Reps :=
  ⟨least, most.map (max least), by
    intro m hm
    obtain ⟨n, -, rfl⟩ := Option.map_eq_some_iff.mp hm
    apply Nat.le_max_left⟩

/-- One more repetition after `count` of them stays within the limit. -/
def allowsMore (r : Reps) (count : Nat) : Bool :=
  r.most.all (count < ·)

theorem allowsMore_iff (r : Reps) (count : Nat) :
  r.allowsMore count = true ↔ ∀ m ∈ r.most, count + 1 ≤ m
  := by
  rw [allowsMore, Option.all_eq_true]
  simp only [decide_eq_true_eq]
  rfl

end Reps

end Respell
