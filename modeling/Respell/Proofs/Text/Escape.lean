import Mathlib.Data.List.Basic
import Respell.Proofs.Text.Cut

/-!
# Pieces of a text, written with escapes

A piece of a text stands behind one of some marks, and runs up to the first of some others that no
escape is in front of.  What is written there is the piece without its escapes.  Where all marks are
ASCII characters this may be done byte by byte: an escape reaches the first byte of a character
only, but no other byte of it is a mark.
-/

namespace Respell

namespace Text

section Piece

variable {α : Type}

/-- The piece stands in the text right behind one of the openings, with `after` behind it, which
begins with one of the ends if it is not empty. -/
def Between (opens ends piece after text : List α) : Prop :=
  (∃ before, ∃ a ∈ opens, text = before ++ a :: (piece ++ after)) ∧ ∀ b ∈ after.head?, b ∈ ends

theorem Between.infix {opens ends piece after text : List α} (h : Between opens ends piece after text) :
  piece <:+: text
  := by
  obtain ⟨⟨before, a, -, rfl⟩, -⟩ := h
  use before ++ [a], after
  rw [List.append_assoc, List.append_assoc, List.singleton_append]

variable [DecidableEq α]

/-- The piece without the escapes in it.  One at the end escapes nothing and stays. -/
def unescape (escape : α) : List α → List α
  | [] => []
  | [a] => [a]
  | a :: b :: rest =>
    if a = escape then b :: unescape escape rest else a :: unescape escape (b :: rest)

/-- The piece, which `after` is behind, has none of the ends outside its escapes.  Only where nothing
is behind it may it end with an escape. -/
def Unbroken (escape : α) (ends after : List α) : List α → Prop
  | [] => True
  | [a] => a ∉ ends ∧ (a = escape → after = [])
  | a :: b :: rest =>
    a ∉ ends ∧
      if a = escape then Unbroken escape ends after rest
      else Unbroken escape ends after (b :: rest)

/-- What is written in the text behind one of the openings, up to one of the ends. -/
def Writes (escape : α) (opens ends text written : List α) : Prop :=
  ∃ piece after, Between opens ends piece after text ∧ Unbroken escape ends after piece ∧
    written = unescape escape piece

variable {escape : α} {opens ends after s t : List α}

theorem unescape_cons_of_ne {a : α} (h : a ≠ escape) (s : List α) :
  unescape escape (a :: s) = a :: unescape escape s
  := by
  cases s with
  | nil => rfl
  | cons b s => rw [unescape, if_neg h]

/-- Without escapes everything stands for itself. -/
theorem unescape_append_of_not_mem (h : escape ∉ s) (t : List α) :
  unescape escape (s ++ t) = s ++ unescape escape t
  := by
  induction s with
  | nil => rfl
  | cons a s ih =>
      obtain ⟨ha, hs⟩ := List.ne_and_not_mem_of_not_mem_cons h
      rw [List.cons_append, unescape_cons_of_ne (Ne.symm ha), ih hs, List.cons_append]

theorem sublist_unescape (escape : α) (s : List α) :
  (unescape escape s).Sublist s
  := by
  fun_induction unescape escape s with
  | case1 => exact .slnil
  | case2 a => exact .refl _
  | case3 b rest ih => exact (ih.cons_cons b).cons _
  | case4 a b rest _ ih => exact ih.cons_cons a

theorem Unbroken.cons {a : α} (h : Unbroken escape ends after s) (ha : a ≠ escape)
    (hend : a ∉ ends) :
  Unbroken escape ends after (a :: s)
  := by
  cases s with
  | nil => exact ⟨hend, fun h => absurd h ha⟩
  | cons b s =>
      rw [Unbroken, if_neg ha]
      exact ⟨hend, h⟩

theorem Unbroken.of_cons {a : α} (h : Unbroken escape ends after (a :: s)) (ha : a ≠ escape) :
  a ∉ ends ∧ Unbroken escape ends after s
  := by
  cases s with
  | nil => exact ⟨h.1, trivial⟩
  | cons b s =>
      rw [Unbroken, if_neg ha] at h
      exact h

theorem Unbroken.of_append (h : Unbroken escape ends after (s ++ t)) (hs : escape ∉ s) :
  (∀ a ∈ s, a ∉ ends) ∧ Unbroken escape ends after t
  := by
  induction s with
  | nil => exact ⟨List.forall_mem_nil _, h⟩
  | cons a s ih =>
      obtain ⟨ha, hs⟩ := List.ne_and_not_mem_of_not_mem_cons hs
      obtain ⟨hend, h⟩ := h.of_cons (Ne.symm ha)
      obtain ⟨hends, h⟩ := ih h hs
      exact ⟨List.forall_mem_cons.mpr ⟨hend, hends⟩, h⟩

/-- What is written in a text are some of its elements in their order. -/
theorem Writes.sublist {text written : List α} (h : Writes escape opens ends text written) :
  written.Sublist text
  := by
  obtain ⟨piece, after, hbetween, -, rfl⟩ := h
  exact (sublist_unescape escape piece).trans hbetween.infix.sublist

end Piece

/-! ### ASCII marks -/

open Utf8

/-- All characters are ASCII characters. -/
def Ascii (cs : List Char) : Prop := (cs.all fun c => c.val < 0x80) = true

instance (cs : List Char) : Decidable (Ascii cs) := inferInstanceAs (Decidable (_ = true))

theorem Ascii.lt {cs : List Char} (h : Ascii cs) {c : Char} (hc : c ∈ cs) :
  c.val < 0x80
  := of_decide_eq_true (List.all_eq_true.mp h c hc)

variable {escape : Char} {opens ends cs : List Char}

/-- A piece that stands between ASCII marks is made of characters. -/
theorem Between.exists_chars (hopens : Ascii opens) (hends : Ascii ends)
    {piece after : Bytes}
    (h : Between (opens.map Char.toUInt8) (ends.map Char.toUInt8) piece after
      (cs.flatMap String.utf8EncodeChar)) :
  ∃ ds es, piece = ds.flatMap String.utf8EncodeChar ∧ after = es.flatMap String.utf8EncodeChar ∧
    Between opens ends ds es cs
  := by
  obtain ⟨⟨before, _, hopen, hcs⟩, hafter⟩ := h
  obtain ⟨a, ha, rfl⟩ := List.mem_map.mp hopen
  obtain ⟨before, c, rest, rfl, -, hc, hrest⟩ :=
    exists_of_flatMap_eq_append (toUInt8_lt_of_ascii (hopens.lt ha)) hcs
  obtain rfl := eq_of_utf8EncodeChar_eq (hopens.lt ha) hc
  cases after with
  | nil =>
      rw [List.append_nil] at hrest
      refine ⟨rest, [], hrest.symm, rfl, ⟨before, c, ha, ?_⟩, ?_⟩
      · rw [List.append_nil]
      · intro b hb
        cases hb
  | cons _ after =>
      obtain ⟨e, he, rfl⟩ := List.mem_map.mp (hafter _ rfl)
      obtain ⟨ds, d, es, rfl, hds, hd, hes⟩ :=
        exists_of_flatMap_eq_append (toUInt8_lt_of_ascii (hends.lt he)) hrest
      obtain rfl := eq_of_utf8EncodeChar_eq (hends.lt he) hd
      refine ⟨ds, d :: es, hds.symm, ?_, ⟨before, c, ha, rfl⟩, ?_⟩
      · rw [List.flatMap_cons, hd, hes, List.singleton_append]
      · intro b hb
        obtain rfl := Option.some.inj hb
        exact he

/-- Only the text without characters has no bytes. -/
theorem eq_nil_of_flatMap_eq_nil {cs : List Char} (h : cs.flatMap String.utf8EncodeChar = []) :
  cs = []
  := by
  cases cs with
  | nil => rfl
  | cons c cs =>
      rw [List.flatMap_cons, List.append_eq_nil_iff] at h
      exact absurd h.1 String.utf8EncodeChar_ne_nil

theorem unescape_flatMap (hescape : escape.val < 0x80) (cs : List Char) :
  unescape escape.toUInt8 (cs.flatMap String.utf8EncodeChar) =
    (unescape escape cs).flatMap String.utf8EncodeChar
  := by
  fun_induction unescape escape cs with
  | case1 => rfl
  | case2 c =>
      rw [List.flatMap_cons, List.flatMap_nil]
      by_cases hc : c = escape
      · rw [hc, utf8EncodeChar_of_ascii hescape]
        rfl
      · rw [unescape_append_of_not_mem (not_mem_utf8EncodeChar hescape hc)]
        rfl
  | case3 c rest ih =>
      -- The escape reaches the first byte of the character, and the others are no escapes.
      obtain ⟨b, bs, hc, hbs⟩ := exists_cons_utf8EncodeChar c
      rw [List.flatMap_cons, List.flatMap_cons, List.flatMap_cons, utf8EncodeChar_of_ascii hescape,
        hc, List.singleton_append, List.cons_append, List.cons_append, unescape, if_pos rfl,
        unescape_append_of_not_mem (not_mem_of_above hescape hbs), ih]
  | case4 c d rest hc ih =>
      rw [List.flatMap_cons, unescape_append_of_not_mem (not_mem_utf8EncodeChar hescape hc), ih,
        ← List.flatMap_cons]

example : unescape '%'.toUInt8 (encode "%é%%%") = encode "é%%" := by decide

theorem Unbroken.of_flatMap (hescape : escape.val < 0x80) (hends : Ascii ends)
    {after : List Char}
    (h : Unbroken escape.toUInt8 (ends.map Char.toUInt8) (after.flatMap String.utf8EncodeChar)
      (cs.flatMap String.utf8EncodeChar)) :
  Unbroken escape ends after cs
  := by
  have hbyte : ∀ {c : Char} {s : Bytes}, String.utf8EncodeChar c = s →
      (∀ b ∈ s, b ∉ ends.map Char.toUInt8) → c ∉ ends := by
    rintro c _ rfl hs hc
    apply hs c.toUInt8
    · rw [utf8EncodeChar_of_ascii (hends.lt hc)]
      exact List.mem_singleton_self _
    · exact List.mem_map_of_mem hc
  fun_induction unescape escape cs with
  | case1 => trivial
  | case2 c =>
      rw [List.flatMap_cons, List.flatMap_nil] at h
      by_cases hc : c = escape
      · rw [hc, utf8EncodeChar_of_ascii hescape] at h
        rw [hc]
        use hbyte (utf8EncodeChar_of_ascii hescape) (List.forall_mem_singleton.mpr h.1)
        intro _
        exact eq_nil_of_flatMap_eq_nil (h.2 rfl)
      · use hbyte rfl (h.of_append (not_mem_utf8EncodeChar hescape hc)).1
        exact fun h => absurd h hc
  | case3 c rest ih =>
      obtain ⟨b, bs, hc, hbs⟩ := exists_cons_utf8EncodeChar c
      rw [List.flatMap_cons, List.flatMap_cons, utf8EncodeChar_of_ascii hescape, hc,
        List.singleton_append, List.cons_append, Unbroken, if_pos rfl] at h
      rw [Unbroken, if_pos rfl]
      use hbyte (utf8EncodeChar_of_ascii hescape) (List.forall_mem_singleton.mpr h.1)
      exact ih (h.2.of_append (not_mem_of_above hescape hbs)).2
  | case4 c d rest hc ih =>
      rw [List.flatMap_cons] at h
      obtain ⟨hend, h⟩ := h.of_append (not_mem_utf8EncodeChar hescape hc)
      rw [Unbroken, if_neg hc]
      exact ⟨hbyte rfl hend, ih h⟩

/-- What is written between ASCII marks is text. -/
theorem Writes.exists_chars (hescape : escape.val < 0x80) (hopens : Ascii opens)
    (hends : Ascii ends) {written : Bytes}
    (h : Writes escape.toUInt8 (opens.map Char.toUInt8) (ends.map Char.toUInt8)
      (cs.flatMap String.utf8EncodeChar) written) :
  ∃ ds, written = ds.flatMap String.utf8EncodeChar ∧ Writes escape opens ends cs ds
  := by
  obtain ⟨piece, after, hbetween, hunbroken, rfl⟩ := h
  obtain ⟨ds, es, rfl, rfl, hds⟩ := hbetween.exists_chars hopens hends
  exact ⟨unescape escape ds, unescape_flatMap hescape ds, ds, es, hds,
    hunbroken.of_flatMap hescape hends, rfl⟩

end Text

end Respell
