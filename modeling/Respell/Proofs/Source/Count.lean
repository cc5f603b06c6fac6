import Mathlib.Data.List.Induction
import Mathlib.Data.List.TakeWhile
import Mathlib.Data.Nat.Digits.Defs
import Mathlib.Tactic.Common
import Respell.Source.Quantifier
import Respell.Text.Utf8

/-!
# Counts

A count is read as it is defined: an opening brace, one number or two with a comma behind the
first, and a closing brace, where a number is any digits of a value below the limit, with as many
zeros in front as one likes.  Nothing else is a count, and in particular not the digits of
a greater value.
-/

namespace Respell

namespace Source

/-- The value of decimal digits, the last of which counts the units. -/
def valueOf (digits : Bytes) : Nat :=
  Nat.ofDigits 10 (digits.reverse.map fun d => d.toNat - 0x30)

/-- One digit or more, of a value that has a place in 64 bits. -/
structure Numeral (digits : Bytes) : Prop where
  nonempty : digits ≠ []
  isDigit : ∀ d ∈ digits, Byte.isDigit d = true
  lt : valueOf digits < 2 ^ 64

/-- Behind its opening brace a count stands in front of some bytes, and gives bounds. -/
inductive Counts : Bytes → Reps → Bytes → Prop
  /-- One number is both bounds. -/
  | exactly {low rest : Bytes} {reps : Reps} (hlow : Numeral low)
      (hleast : reps.least = valueOf low) (hmost : reps.most = some (valueOf low)) :
      Counts (low ++ Mark.countClose :: rest) reps rest
  /-- With nothing behind the comma there is no limit. -/
  | atLeast {low rest : Bytes} {reps : Reps} (hlow : Numeral low)
      (hleast : reps.least = valueOf low) (hmost : reps.most = none) :
      Counts (low ++ Mark.comma :: Mark.countClose :: rest) reps rest
  /-- A limit below the first number is raised to it. -/
  | between {low high rest : Bytes} {reps : Reps} (hlow : Numeral low) (hhigh : Numeral high)
      (hleast : reps.least = valueOf low)
      (hmost : reps.most = some (max (valueOf low) (valueOf high))) :
      Counts (low ++ Mark.comma :: (high ++ Mark.countClose :: rest)) reps rest

/-! ### Marks -/

theorem after?_self (mark : UInt8) (rest : Bytes) :
  after? mark (mark :: rest) = some rest
  := if_pos rfl

theorem after?_of_ne {b mark : UInt8} (h : b ≠ mark) (rest : Bytes) :
  after? mark (b :: rest) = none
  := if_neg h

theorem eq_cons_of_after? {mark : UInt8} {s rest : Bytes} (h : after? mark s = some rest) :
  s = mark :: rest
  := by
  cases s with
  | nil => cases h
  | cons b s =>
      rw [after?] at h
      split at h
      · next hb => rw [hb, Option.some.inj h]
      · cases h

/-- A count is a quantifier that begins with a brace. -/
theorem quantifier?_countOpen (s : Bytes) :
  quantifier? (Mark.countOpen :: s) = count? s
  := rfl

/-! ### Numbers -/

/-- Reading digits from the front gives their value. -/
theorem decimal_eq_valueOf (digits : Bytes) :
  decimal digits = valueOf digits
  := by
  induction digits using List.reverseRecOn with
  | nil => rfl
  | append_singleton digits d ih =>
      rw [valueOf, List.reverse_concat, List.map_cons, Nat.ofDigits_cons, ← valueOf, ← ih, decimal,
        List.foldl_append, Nat.add_comm]
      rfl

/-- A number is read up to the byte behind it, which is no digit. -/
theorem number?_of_numeral {digits : Bytes} (h : Numeral digits) {b : UInt8}
    (hb : Byte.isDigit b = false) (rest : Bytes) :
  number? (digits ++ b :: rest) = some (valueOf digits, b :: rest)
  := by
  have hb : ¬ Byte.isDigit b = true := by simp [hb]
  have htake : (digits ++ b :: rest).takeWhile Byte.isDigit = digits := by
    rw [List.takeWhile_append_of_pos h.isDigit, List.takeWhile_cons_of_neg hb, List.append_nil]
  have hdrop : (digits ++ b :: rest).dropWhile Byte.isDigit = b :: rest := by
    rw [List.dropWhile_append_of_pos h.isDigit, List.dropWhile_cons_of_neg hb]
  have hlimit : ¬ countLimit ≤ valueOf digits := Nat.not_le.mpr h.lt
  simp only [number?, htake, hdrop, decimal_eq_valueOf]
  rw [if_neg]
  simp [h.nonempty, hlimit]

/-- What is read as a number is one. -/
theorem exists_numeral_of_number? {s rest : Bytes} {n : Nat} (h : number? s = some (n, rest)) :
  ∃ digits, Numeral digits ∧ n = valueOf digits ∧ s = digits ++ rest
  := by
  simp only [number?] at h
  split at h
  · cases h
  · next hnot =>
    rw [Bool.or_eq_true, decide_eq_true_eq, not_or, List.isEmpty_iff, decimal_eq_valueOf] at hnot
    cases h
    refine ⟨_, ⟨hnot.1, ?_, Nat.not_le.mp hnot.2⟩, decimal_eq_valueOf _, ?_⟩
    · exact fun d hd => List.mem_takeWhile_imp hd
    · exact List.takeWhile_append_dropWhile.symm

/-- No number begins with the end of a count. -/
theorem Numeral.after?_eq_none {digits : Bytes} (h : Numeral digits) {mark : UInt8}
    (hmark : Byte.isDigit mark = false) (rest : Bytes) :
  after? mark (digits ++ rest) = none
  := by
  obtain ⟨d, digits, rfl⟩ := List.exists_cons_of_ne_nil h.nonempty
  have hd := h.isDigit d List.mem_cons_self
  rw [List.cons_append, after?_of_ne]
  rintro rfl
  rw [hmark] at hd
  cases hd

/-! ### What is read as a count -/

theorem counts_of_count? {s rest : Bytes} {reps : Reps} (h : count? s = some (reps, rest)) :
  Counts s reps rest
  := by
  rw [count?] at h
  split at h
  · cases h
  · next least t hleast =>
    obtain ⟨low, hlow, rfl, rfl⟩ := exists_numeral_of_number? hleast
    split at h
    · next hclose =>
      rw [eq_cons_of_after? hclose]
      cases h
      apply Counts.exactly hlow rfl
      exact congrArg some (Nat.max_self _)
    · cases h
    · next u _ hcomma =>
      rw [eq_cons_of_after? hcomma]
      split at h
      · next hclose =>
        rw [eq_cons_of_after? hclose]
        cases h
        exact .atLeast hlow rfl rfl
      · cases h
      · next most v _ hmost =>
        obtain ⟨high, hhigh, rfl, rfl⟩ := exists_numeral_of_number? hmost
        obtain ⟨rest, hclose, heq⟩ := Option.map_eq_some_iff.mp h
        rw [eq_cons_of_after? hclose]
        cases heq
        exact .between hlow hhigh rfl rfl

/-- Bounds with a limit that was raised if it had to be. -/
theorem eq_between {reps : Reps} {least : Nat} (most : Option Nat) (hleast : reps.least = least)
    (hmost : reps.most = most.map (max least)) :
  reps = .between least most
  := by
  obtain ⟨l, m, h⟩ := reps
  dsimp only at hleast hmost
  subst hleast hmost
  rfl

theorem count?_of_counts {s rest : Bytes} {reps : Reps} (h : Counts s reps rest) :
  count? s = some (reps, rest)
  := by
  have hcomma : Mark.comma ≠ Mark.countClose := by decide
  cases h with
  | exactly hlow hleast hmost =>
      have hreps := eq_between (some _) hleast
        (hmost.trans (congrArg some (Nat.max_self _).symm))
      rw [count?, number?_of_numeral hlow rfl]
      dsimp only
      rw [after?_self, hreps]
  | atLeast hlow hleast hmost =>
      rw [count?, number?_of_numeral hlow rfl]
      dsimp only
      rw [after?_of_ne hcomma, after?_self]
      dsimp only
      rw [after?_self, eq_between none hleast hmost]
  | between hlow hhigh hleast hmost =>
      rw [count?, number?_of_numeral hlow rfl]
      dsimp only
      rw [after?_of_ne hcomma, after?_self]
      dsimp only
      rw [hhigh.after?_eq_none rfl, number?_of_numeral hhigh rfl]
      dsimp only
      rw [after?_self, eq_between (some _) hleast hmost]
      rfl

/-- A count is read exactly where one stands, with its bounds and up to its end. -/
theorem count?_eq_some_iff {s rest : Bytes} {reps : Reps} :
  count? s = some (reps, rest) ↔ Counts s reps rest
  := ⟨counts_of_count?, count?_of_counts⟩

/-- Zeros in front change nothing, and the number 2⁶⁴ is too great. -/
example :
  count? (Utf8.encode "007,3\x7d") = some (.between 7 (some 7), []) ∧
    count? (Utf8.encode "18446744073709551616\x7d") = none
  := by
  decide +kernel

end Source

end Respell
