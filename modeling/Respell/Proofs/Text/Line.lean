import Mathlib.Data.List.TakeWhile
import Respell.Proofs.Text.Cut
import Respell.Text.Line

/-!
# Lines and pieces

The lines of a text are the pieces between its newlines, without the carriage returns at their ends.
An empty piece behind the last newline does not count.  So the lines of two texts one behind the
other are those of the first and those of the second, if the first one ends with a newline.
-/

namespace Respell.Text

open Utf8

/-! ### Separators -/

section Separator

variable {α : Type} [DecidableEq α] {separator : α} {s : List α}

theorem bne_of_not_mem (h : separator ∉ s) :
  ∀ a ∈ s, (a != separator) = true
  := by
  intro a ha
  apply bne_iff_ne.mpr
  rintro rfl
  exact h ha

theorem takeWhile_of_not_mem (h : separator ∉ s) :
  s.takeWhile (· != separator) = s
  := List.takeWhile_eq_self_iff.mpr (bne_of_not_mem h)

theorem dropWhile_of_not_mem (h : separator ∉ s) :
  s.dropWhile (· != separator) = []
  := List.dropWhile_eq_nil_iff.mpr (bne_of_not_mem h)

theorem takeWhile_append_separator (h : separator ∉ s) (t : List α) :
  (s ++ separator :: t).takeWhile (· != separator) = s
  := by
  have hends : ¬ (separator != separator) = true := ne_true_of_eq_false (bne_self_eq_false _)
  rw [List.takeWhile_append_of_pos (bne_of_not_mem h), List.takeWhile_cons, if_neg hends,
    List.append_nil]

theorem dropWhile_append_separator (h : separator ∉ s) (t : List α) :
  (s ++ separator :: t).dropWhile (· != separator) = separator :: t
  := by
  have hends : ¬ (separator != separator) = true := ne_true_of_eq_false (bne_self_eq_false _)
  rw [List.dropWhile_append_of_pos (bne_of_not_mem h), List.dropWhile_cons, if_neg hends]

/-- There is no separator, or there is a first one. -/
theorem not_mem_or_exists_append (separator : α) (s : List α) :
  separator ∉ s ∨ ∃ front back, separator ∉ front ∧ s = front ++ separator :: back
  := by
  by_cases h : separator ∈ s
  · obtain ⟨front, back, hs, hfront⟩ := List.eq_append_cons_of_mem h
    exact .inr ⟨front, back, hfront, hs⟩
  · exact .inl h

end Separator

/-! ### Pieces -/

/-- The pieces between the newlines.  What is behind the last newline is a piece only if there is
something. -/
def pieces (s : Bytes) : List Bytes :=
  let parts := s.splitOn newline
  if parts.getLast? = some [] then parts.dropLast else parts

theorem splitOn_append_newline (s t : Bytes) :
  (s ++ newline :: t).splitOn newline = s.splitOn newline ++ t.splitOn newline
  := List.splitOnP_append_cons s t (beq_self_eq_true newline)

theorem splitOn_of_not_mem {s : Bytes} (h : newline ∉ s) :
  s.splitOn newline = [s]
  := by
  apply List.splitOnP_eq_singleton
  intro b hb
  exact beq_eq_false_iff_ne.mpr (bne_iff_ne.mp (bne_of_not_mem h b hb))

/-- A newline ends a piece. -/
theorem pieces_append_newline (s t : Bytes) :
  pieces (s ++ newline :: t) = s.splitOn newline ++ pieces t
  := by
  have hne : t.splitOn newline ≠ [] := List.splitOn_ne_nil newline t
  have hlast : (s.splitOn newline ++ t.splitOn newline).getLast? = (t.splitOn newline).getLast? := by
    rw [List.getLast?_append, List.getLast?_eq_some_getLast hne, Option.some_or]
  rw [pieces, pieces, splitOn_append_newline, hlast]
  split
  · rw [List.dropLast_append_of_ne_nil hne]
  · rfl

theorem pieces_of_not_mem {s : Bytes} (h : newline ∉ s) (hne : s ≠ []) :
  pieces s = [s]
  := by
  have hlast : ¬ [s].getLast? = some [] := fun he => hne (Option.some.inj he)
  rw [pieces, splitOn_of_not_mem h]
  exact if_neg hlast

/-! ### Lines -/

theorem lines_of_ne_nil {s : Bytes} (h : s ≠ []) :
  lines s = trimEnd (s.takeWhile (· != newline)) :: lines (s.dropWhile (· != newline)).tail
  := by
  cases s with
  | nil => exact absurd rfl h
  | cons b s => rw [lines]

/-- The lines of a text are its pieces, as far as they are not ignored at the end. -/
theorem lines_eq_map_pieces (s : Bytes) :
  lines s = (pieces s).map trimEnd
  := by
  induction hlength : s.length using Nat.strongRecOn generalizing s with
  | ind n ih =>
      rcases not_mem_or_exists_append newline s with hs | ⟨front, back, hfront, rfl⟩
      · by_cases hne : s = []
        · rw [hne, lines]
          rfl
        · rw [lines_of_ne_nil hne, takeWhile_of_not_mem hs, dropWhile_of_not_mem hs,
            List.tail_nil, lines, pieces_of_not_mem hs hne]
          rfl
      · have hne : front ++ newline :: back ≠ [] := by simp
        have hlt : back.length < n := by
          rw [← hlength, List.length_append, List.length_cons]
          omega
        rw [lines_of_ne_nil hne, takeWhile_append_separator hfront,
          dropWhile_append_separator hfront, List.tail_cons, ih back.length hlt back rfl,
          pieces_append_newline, splitOn_of_not_mem hfront]
        rfl

/-- Behind a newline a text begins anew. -/
theorem pieces_append {s : Bytes} (h : s = [] ∨ s.getLast? = some newline) (t : Bytes) :
  pieces (s ++ t) = pieces s ++ pieces t
  := by
  rcases h with rfl | h
  · rfl
  · obtain ⟨front, rfl⟩ := List.getLast?_eq_some_iff.mp h
    have hnil : pieces [] = [] := rfl
    rw [List.append_assoc, List.singleton_append, pieces_append_newline, pieces_append_newline,
      hnil, List.append_nil]

/-! ### Pieces of texts -/

theorem isText_of_mem_splitOn {s : Bytes} (h : IsText s) :
  ∀ p ∈ s.splitOn newline, IsText p
  := by
  induction hlength : s.length using Nat.strongRecOn generalizing s with
  | ind n ih =>
      intro p hp
      rcases not_mem_or_exists_append newline s with hs | ⟨front, back, hfront, rfl⟩
      · rw [splitOn_of_not_mem hs, List.mem_singleton] at hp
        rwa [hp]
      · obtain ⟨htext, htext'⟩ := (isText_append_cons_iff (by decide)).mp h
        rw [splitOn_append_newline, splitOn_of_not_mem hfront, List.singleton_append,
          List.mem_cons] at hp
        rcases hp with rfl | hp
        · exact htext
        · apply ih back.length _ htext' rfl p hp
          rw [← hlength, List.length_append, List.length_cons]
          omega

/-- The pieces of a text are texts. -/
theorem isText_of_mem_pieces {s : Bytes} (h : IsText s) :
  ∀ p ∈ pieces s, IsText p
  := by
  intro p hp
  apply isText_of_mem_splitOn h
  rw [pieces] at hp
  split at hp
  · apply (List.dropLast_sublist _).subset hp
  · exact hp

/-- Carriage returns at the end do not matter to whether something is a text. -/
theorem isText_trimEnd_iff {s : Bytes} :
  IsText (trimEnd s) ↔ IsText s
  := by
  have hsplit : s = trimEnd s ++ (s.reverse.takeWhile (· == carriageReturn)).reverse := by
    rw [trimEnd, ← List.reverse_append, List.takeWhile_append_dropWhile, List.reverse_reverse]
  have hascii : ∀ b ∈ (s.reverse.takeWhile (· == carriageReturn)).reverse, b < 0x80 := by
    intro b hb
    have hall := List.all_takeWhile (l := s.reverse) (p := (· == carriageReturn))
    rw [beq_iff_eq.mp (List.all_eq_true.mp hall b (List.mem_reverse.mp hb))]
    decide
  conv_rhs => rw [hsplit]
  exact (isText_append_iff_of_ascii hascii).symm

end Respell.Text
