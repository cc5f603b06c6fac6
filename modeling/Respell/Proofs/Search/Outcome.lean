import Mathlib.Tactic.Common
import Respell.Search.Repetition

/-!
# What outcomes contain

An outcome is seen through the path that was found and the ending at each level of the
repetitions under way.  Joining two outcomes keeps the closest one of each.

`Outcome.Within` says that all an outcome contains satisfies given conditions, and
`Outcome.Meets` that it contains something good enough.  Both are kept when outcomes are
joined and when alternatives are explored.
-/

namespace Respell

/-! ### The closest one of two -/

section Closest

variable {α : Type} {left : α → Nat}

theorem closest_none_right (a : Option α) :
  closest left a none = a
  := by
  cases a with
  | none => rfl
  | some x => rfl

/-- The closest one of two images is the image of the closest one. -/
theorem closest_map {β : Type} (f : β → α) (a b : Option β) :
  closest left (a.map f) (b.map f) = (closest (fun x => left (f x)) a b).map f
  := by
  cases a with
  | none => rfl
  | some x =>
      cases b with
      | none => rfl
      | some y =>
          rw [Option.map_some, Option.map_some, closest, closest]
          split
          · rfl
          · rfl

theorem mem_of_mem_closest {a b : Option α} {x : α} (h : x ∈ closest left a b) :
  x ∈ a ∨ x ∈ b
  := by
  cases a with
  | none =>
      right
      apply h
  | some y =>
      cases b with
      | none =>
          left
          apply h
      | some z =>
          simp only [closest] at h
          split at h
          · right
            apply h
          · left
            apply h

/-- The closest one of two leaves no more than the first one. -/
theorem closest_le_left {a b : Option α} {n : Nat} (h : ∃ x ∈ a, left x ≤ n) :
  ∃ x ∈ closest left a b, left x ≤ n
  := by
  obtain ⟨x, rfl, hx⟩ := h
  cases b with
  | none => use x, rfl
  | some y =>
      simp only [closest]
      split
      · use y, rfl
        omega
      · use x, rfl

/-- The closest one of two leaves no more than the second one. -/
theorem closest_le_right {a b : Option α} {n : Nat} (h : ∃ x ∈ b, left x ≤ n) :
  ∃ x ∈ closest left a b, left x ≤ n
  := by
  obtain ⟨y, rfl, hy⟩ := h
  cases a with
  | none => use y, rfl
  | some x =>
      simp only [closest]
      split
      · use y, rfl
      · use x, rfl
        omega

theorem closest_assoc (a b c : Option α) :
  closest left (closest left a b) c = closest left a (closest left b c)
  := by
  cases a with
  | none => rfl
  | some x =>
      cases b with
      | none => rfl
      | some y =>
          cases c with
          | none => rw [closest_none_right, closest_none_right]
          | some z =>
              by_cases hy : left y < left x
              · by_cases hz : left z < left y
                · have hx : left z < left x := by omega
                  simp only [closest, if_pos hy, if_pos hz, if_pos hx]
                · simp only [closest, if_pos hy, if_neg hz]
              · by_cases hz : left z < left y
                · simp only [closest, if_neg hy, if_pos hz]
                · have hx : ¬ left z < left x := by omega
                  simp only [closest, if_neg hy, if_neg hz, if_neg hx]

end Closest

namespace Outcome

/-! ### The ending at a level -/

/-- The ending of the current round of the repetition at a level, counted from the inside
out. -/
def endingAt? (o : Outcome) (i : Nat) : Option Ending := o.endings[i]?.join

theorem ending?_eq (o : Outcome) :
  o.ending? = o.endingAt? 0
  := by
  obtain ⟨found, endings⟩ := o
  cases endings with
  | nil => rfl
  | cons e es => rfl

@[simp]
theorem endingAt?_outside (o : Outcome) (i : Nat) :
  o.outside.endingAt? i = o.endingAt? (i + 1)
  := by
  rw [outside, endingAt?, endingAt?, List.getElem?_tail]

theorem join_joinEndings (ds es : List (Option Ending)) (i : Nat) :
  (joinEndings ds es)[i]?.join = closest Ending.left ds[i]?.join es[i]?.join
  := by
  induction ds generalizing es i with
  | nil =>
      rw [joinEndings]
      rfl
  | cons d ds ih =>
      cases es with
      | nil =>
          rw [joinEndings, List.getElem?_nil, Option.join_none, closest_none_right]
          simp
      | cons e es =>
          cases i with
          | zero => rfl
          | succ i => apply ih

@[simp]
theorem endingAt?_orElse (a b : Outcome) (i : Nat) :
  (a.orElse b).endingAt? i = closest Ending.left (a.endingAt? i) (b.endingAt? i)
  := join_joinEndings a.endings b.endings i

@[simp]
theorem endingAt?_orRather (a b : Outcome) (i : Nat) :
  (a.orRather b).endingAt? i = closest Ending.left (a.endingAt? i) (b.endingAt? i)
  := join_joinEndings a.endings b.endings i

/-! ### All of an outcome satisfies conditions -/

/-- The path that was found satisfies `P`, and the ending at each level `i` satisfies
`Q i`. -/
structure Within (o : Outcome) (P : Path → Prop) (Q : Nat → Ending → Prop) : Prop where
  found : ∀ p ∈ o.found, P p
  endings : ∀ i, ∀ e ∈ o.endingAt? i, Q i e

variable {P : Path → Prop} {Q : Nat → Ending → Prop} {a b : Outcome}

theorem within_fail :
  fail.Within P Q
  where
  found _ h := by cases h
  endings _ _ h := by cases h

theorem Within.orElse (ha : a.Within P Q) (hb : b.Within P Q) :
  (a.orElse b).Within P Q
  where
  found p h := (mem_of_mem_closest h).elim (ha.found p) (hb.found p)
  endings i e h := by
    rw [endingAt?_orElse] at h
    apply (mem_of_mem_closest h).elim (ha.endings i e) (hb.endings i e)

theorem Within.orRather (ha : a.Within P Q) (hb : b.Within P Q) :
  (a.orRather b).Within P Q
  where
  found p h := (mem_of_mem_closest h).elim (hb.found p) (ha.found p)
  endings i e h := by
    rw [endingAt?_orRather] at h
    apply (mem_of_mem_closest h).elim (ha.endings i e) (hb.endings i e)

/-- Conditions on the endings inside one more repetition: one on its own ending, and those
on the endings outside of it. -/
def innermost (R : Ending → Prop) (Q : Nat → Ending → Prop) : Nat → Ending → Prop
  | 0 => R
  | i + 1 => Q i

theorem Within.outside {R : Ending → Prop} (h : a.Within P (innermost R Q)) :
  a.outside.Within P Q
  where
  found := h.found
  endings i e he := h.endings (i + 1) e (by rwa [← endingAt?_outside])

theorem within_explore {α : Type} {enough : Path → Bool} {search : α → Outcome}
    {as : List α} {best : Outcome} (hbest : best.Within P Q)
    (h : ∀ x ∈ as, (search x).Within P Q) :
  (explore enough search as best).Within P Q
  := by
  induction as generalizing best with
  | nil => apply hbest
  | cons x as ih =>
      rw [explore]
      have hx := hbest.orElse (h x List.mem_cons_self)
      split
      · apply hx
      · apply ih hx (fun y hy => h y (List.mem_cons_of_mem x hy))

/-! ### Something in an outcome is good enough -/

/-- What one may hope for in an outcome: a path, or an ending at a level, that leaves no
more than so many bytes unread. -/
inductive Goal where
  | path (n : Nat)
  | ending (i n : Nat)

/-- The same goal as it is seen from inside one more repetition. -/
def Goal.inside : Goal → Goal
  | path n => path n
  | ending i n => ending (i + 1) n

/-- The path that was found goes through the whole word, so that there is no reason to
search on. -/
def Full (o : Outcome) : Prop := ∃ p ∈ o.found, p.left ≤ 0

/-- The outcome contains what is hoped for.  Endings may be missing when a path through
the whole word was found. -/
def Meets (o : Outcome) : Goal → Prop
  | .path n => ∃ p ∈ o.found, p.left ≤ n
  | .ending i n => (∃ e ∈ o.endingAt? i, e.left ≤ n) ∨ o.Full

variable {g : Goal}

theorem Full.meets (h : a.Full) (g : Goal) :
  a.Meets g
  := by
  cases g with
  | path n =>
      obtain ⟨p, hp, hle⟩ := h
      use p, hp
      apply Nat.le_trans hle (Nat.zero_le n)
  | ending i n =>
      right
      apply h

theorem Meets.orElse_left (h : a.Meets g) (b : Outcome) :
  (a.orElse b).Meets g
  := by
  cases g with
  | path n => apply closest_le_left h
  | ending i n =>
      rcases h with h | h
      · left
        rw [endingAt?_orElse]
        apply closest_le_left h
      · right
        apply closest_le_left h

theorem Meets.orElse_right (a : Outcome) (h : b.Meets g) :
  (a.orElse b).Meets g
  := by
  cases g with
  | path n => apply closest_le_right h
  | ending i n =>
      rcases h with h | h
      · left
        rw [endingAt?_orElse]
        apply closest_le_right h
      · right
        apply closest_le_right h

theorem Meets.orRather_left (h : a.Meets g) (b : Outcome) :
  (a.orRather b).Meets g
  := by
  cases g with
  | path n => apply closest_le_right h
  | ending i n =>
      rcases h with h | h
      · left
        rw [endingAt?_orRather]
        apply closest_le_left h
      · right
        apply closest_le_right h

theorem Meets.orRather_right (a : Outcome) (h : b.Meets g) :
  (a.orRather b).Meets g
  := by
  cases g with
  | path n => apply closest_le_left h
  | ending i n =>
      rcases h with h | h
      · left
        rw [endingAt?_orRather]
        apply closest_le_right h
      · right
        apply closest_le_left h

theorem Meets.outside (h : a.Meets g.inside) :
  a.outside.Meets g
  := by
  cases g with
  | path n => apply h
  | ending i n =>
      rcases h with h | h
      · left
        rw [endingAt?_outside]
        apply h
      · right
        apply h

section Explore

variable {α : Type} {enough : Path → Bool} {search : α → Outcome}

theorem Meets.explore {best : Outcome} (h : best.Meets g) (as : List α) :
  (explore enough search as best).Meets g
  := by
  induction as generalizing best with
  | nil => apply h
  | cons x as ih =>
      rw [Respell.explore]
      split
      · apply h.orElse_left
      · apply ih (h.orElse_left _)

theorem full_of_satisfies (henough : ∀ p, enough p = true → p.left = 0)
    (h : a.satisfies enough = true) :
  a.Full
  := by
  obtain ⟨p, hp, hpe⟩ := (Option.any_eq_true _ _).mp h
  use p, hp
  apply Nat.le_of_eq (henough p hpe)

/-- When one of the alternatives meets the goal, exploring them all does, as exploring
stops early only at a path through the whole word. -/
theorem meets_explore (henough : ∀ p, enough p = true → p.left = 0) {as : List α}
    (best : Outcome) {x : α} (hx : x ∈ as) (h : (search x).Meets g) :
  (explore enough search as best).Meets g
  := by
  induction as generalizing best with
  | nil => cases hx
  | cons y as ih =>
      rw [Respell.explore]
      split
      · next hsat => apply (full_of_satisfies henough hsat).meets
      · rcases List.mem_cons.mp hx with rfl | hx
        · apply Meets.explore (Meets.orElse_right best h)
        · apply ih _ hx

end Explore

end Outcome

end Respell
