import Respell.Proofs.Source.Closing
import Respell.Proofs.Source.Rest

/-!
# Where scans warn

A scan takes a part of a source, and what it warns about stands in this part.  With one exception:
a malformed count is met by the item in front of it, too.  So no two warnings of a kind that the
scans of items behind each other give stand at the same place.  Warnings about what is not closed
are left out here, as they are given where the source ends.
-/

namespace Respell

namespace Warning

/-- The kinds of warnings about a source. -/
inductive Kind where
  | unclosedGroup
  | unclosedSet
  | unclosedReference
  | malformedCount
  | strayQuantifier
  | finalEscape
  | groupBeyondCaptures
  deriving DecidableEq

/-- The kind of a warning about a source, and the position that it tells. -/
def place? : Warning → Option (Kind × Nat)
  | unclosedGroup pos => some (.unclosedGroup, pos)
  | unclosedSet pos => some (.unclosedSet, pos)
  | unclosedReference pos => some (.unclosedReference, pos)
  | malformedCount pos => some (.malformedCount, pos)
  | strayQuantifier pos => some (.strayQuantifier, pos)
  | finalEscape pos => some (.finalEscape, pos)
  | groupBeyondCaptures _ pos => some (.groupBeyondCaptures, pos)
  | noSuchGroup _ => none
  | captureNotSet _ => none

/-- The number of a group that has no capture. -/
def numberBeyond? : Warning → Option Nat
  | groupBeyondCaptures number _ => some number
  | _ => none

/-- A warning of this kind is about something that is not closed. -/
def Kind.lacksMark : Kind → Bool
  | unclosedGroup => true
  | unclosedSet => true
  | unclosedReference => true
  | _ => false

/-- How far behind the part of a source that an item takes a warning of this kind may stand. -/
def Kind.delay : Kind → Nat
  | malformedCount => 1
  | _ => 0

theorem Kind.delay_le (k : Kind) :
  k.delay ≤ 1
  := by
  cases k with
  | malformedCount => apply Nat.le_refl
  | _ => apply Nat.zero_le

end Warning

namespace Source

open Warning (Kind)

/-- The positions that the warnings of a kind tell, in order. -/
def positionsOf (k : Kind) (ws : List Warning) : List Nat :=
  ws.filterMap fun w => (w.place?.filter (·.1 = k)).map Prod.snd

section Positions

variable {k : Kind} {ws ws' : List Warning} {a b c : Nat}

theorem positionsOf_append :
  positionsOf k (ws ++ ws') = positionsOf k ws ++ positionsOf k ws'
  := List.filterMap_append

theorem positionsOf_singleton {w : Warning} {k' : Kind} {pos : Nat}
    (h : w.place? = some (k', pos)) :
  positionsOf k [w] = if k' = k then [pos] else []
  := by
  rw [positionsOf, List.filterMap_cons, h, Option.filter_some]
  by_cases hk : k' = k
  · simp [hk]
  · simp [hk]

theorem mem_positionsOf {pos : Nat} :
  pos ∈ positionsOf k ws ↔ ∃ w ∈ ws, w.place? = some (k, pos)
  := by
  rw [positionsOf, List.mem_filterMap]
  apply exists_congr
  intro w
  apply and_congr_right
  intro _
  constructor
  · intro h
    obtain ⟨⟨k', pos'⟩, hplace, rfl⟩ := Option.map_eq_some_iff.mp h
    obtain ⟨hplace, hk⟩ := Option.filter_eq_some_iff.mp hplace
    rw [hplace, ← of_decide_eq_true hk]
  · intro h
    rw [h, Option.filter_some, if_pos (decide_eq_true rfl)]
    rfl

/-- The warnings of a kind stand at different places, which are not in front of `a` but in front
of `b`.  There are none unless the kind is one of those that a scan of an item gives. -/
structure Spread (k : Kind) (a b : Nat) (ws : List Warning) : Prop where
  nodup : (positionsOf k ws).Nodup
  within : ∀ pos ∈ positionsOf k ws, k ≠ .groupBeyondCaptures ∧ a ≤ pos ∧ pos < b

theorem spread_of_none (h : positionsOf k ws = []) :
  Spread k a b ws
  where
  nodup := h ▸ List.nodup_nil
  within := h ▸ List.forall_mem_nil _

theorem spread_nil :
  Spread k a b []
  := spread_of_none rfl

theorem Spread.mono (h : Spread k a b ws) {a' b' : Nat} (ha : a' ≤ a) (hb : b ≤ b') :
  Spread k a' b' ws
  where
  nodup := h.nodup
  within pos hpos := by
    obtain ⟨hk, hle, hlt⟩ := h.within pos hpos
    exact ⟨hk, Nat.le_trans ha hle, Nat.lt_of_lt_of_le hlt hb⟩

/-- Warnings about what stands one behind the other. -/
theorem Spread.append (h : Spread k a b ws) (h' : Spread k b c ws') (hab : a ≤ b) (hbc : b ≤ c) :
  Spread k a c (ws ++ ws')
  where
  nodup := by
    rw [positionsOf_append]
    apply List.nodup_append.mpr ⟨h.nodup, h'.nodup, _⟩
    intro pos hpos pos' hpos'
    have hlt := (h.within pos hpos).2.2
    have hle := (h'.within pos' hpos').2.1
    omega
  within := by
    rw [positionsOf_append]
    intro pos hpos
    rcases List.mem_append.mp hpos with hpos | hpos
    · exact (h.mono (Nat.le_refl a) hbc).within pos hpos
    · exact (h'.mono hab (Nat.le_refl c)).within pos hpos

theorem spread_singleton {w : Warning} {k' : Kind} {pos : Nat} (h : w.place? = some (k', pos))
    (hk : k' ≠ .groupBeyondCaptures) (hpos : k' = k → a ≤ pos ∧ pos < b) :
  Spread k a b [w]
  := by
  have hpositions := positionsOf_singleton (k := k) h
  by_cases hkk : k' = k
  · rw [if_pos hkk] at hpositions
    exact ⟨hpositions ▸ List.pairwise_singleton _ pos,
      hpositions ▸ List.forall_mem_singleton.mpr ⟨hkk ▸ hk, hpos hkk⟩⟩
  · rw [if_neg hkk] at hpositions
    exact spread_of_none hpositions

/-- Warnings about the same part of a source, of which only one of the two lists has some of the
kind. -/
theorem Spread.beside (h : Spread k a b ws) (h' : Spread k a b ws')
    (hnone : positionsOf k ws = [] ∨ positionsOf k ws' = []) :
  Spread k a b (ws ++ ws')
  := by
  rcases hnone with hnone | hnone
  · have happend : positionsOf k (ws ++ ws') = positionsOf k ws' := by
      rw [positionsOf_append, hnone, List.nil_append]
    exact ⟨happend ▸ h'.nodup, happend ▸ h'.within⟩
  · have happend : positionsOf k (ws ++ ws') = positionsOf k ws := by
      rw [positionsOf_append, hnone, List.append_nil]
    exact ⟨happend ▸ h.nodup, happend ▸ h.within⟩

/-- Where no count is malformed no warning is given late. -/
theorem Spread.later (h : Spread k a b ws) (hnone : positionsOf .malformedCount ws = []) :
  Spread k (a + k.delay) b ws
  := by
  cases k with
  | malformedCount => exact spread_of_none hnone
  | _ => exact h

end Positions

/-! ### Text and quantifiers -/

section Scans

variable {k : Kind} {source : Bytes}

/-- What is left after more was read begins further behind. -/
theorem position_le_position {s t : Bytes} (h : s <:+ t) (total : Nat) :
  position total t ≤ position total s
  := Nat.sub_le_sub_left h.length_le total

theorem position_lt_position {b : UInt8} {s t : Bytes} (h : b :: t <:+ source) (hs : s <:+ t) :
  position source.length (b :: t) < position source.length s
  := by
  have hb := h.length_le
  have hle := hs.length_le
  rw [List.length_cons] at hb
  rw [position, position, List.length_cons]
  omega

/-- Warnings of a scan and of another one of what it leaves. -/
theorem Spread.behind {s t u : Bytes} {ws ws' : List Warning}
    (h : Spread k (position source.length s) (position source.length t) ws)
    (h' : Spread k (position source.length t) (position source.length u) ws')
    (ht : t <:+ s) (hu : u <:+ t) :
  Spread k (position source.length s) (position source.length u) (ws ++ ws')
  := h.append h' (position_le_position ht _) (position_le_position hu _)

/-- The warnings about one byte: at most one about what it begins, and one if it is an escape mark
at the end. -/
theorem spread_byte {pos : Nat} {ws ws' : List Warning}
    (h : ws = [] ∨ ws = [.malformedCount pos] ∨ ws = [.strayQuantifier pos])
    (h' : ws' = [] ∨ ws' = [.finalEscape pos]) :
  Spread k pos (pos + 1) (ws ++ ws')
  := by
  have hws : Spread k pos (pos + 1) ws := by
    rcases h with rfl | rfl | rfl
    · apply spread_nil
    · exact spread_singleton rfl (by decide) fun _ => ⟨Nat.le_refl pos, Nat.lt_succ_self pos⟩
    · exact spread_singleton rfl (by decide) fun _ => ⟨Nat.le_refl pos, Nat.lt_succ_self pos⟩
  have hws' : Spread k pos (pos + 1) ws' := by
    rcases h' with rfl | rfl
    · apply spread_nil
    · exact spread_singleton rfl (by decide) fun _ => ⟨Nat.le_refl pos, Nat.lt_succ_self pos⟩
  apply hws.beside hws'
  by_cases hk : .finalEscape = k
  · left
    subst hk
    rcases h with rfl | rfl | rfl
    all_goals rfl
  · right
    rcases h' with rfl | rfl
    · rfl
    · rw [positionsOf_singleton rfl, if_neg hk]

theorem malformedCount_cases (total : Nat) (s : Bytes) :
  malformedCount total s = [] ∨ malformedCount total s = [.malformedCount (position total s)]
  := by
  rw [malformedCount]
  split
  · exact .inr rfl
  · exact .inl rfl

theorem strayQuantifier_cases (total : Nat) (s : Bytes) :
  strayQuantifier total s = [] ∨ strayQuantifier total s = [.strayQuantifier (position total s)]
  := by
  rw [strayQuantifier]
  split
  · exact .inr rfl
  · exact .inl rfl

theorem textByte_cases (total : Nat) (b : UInt8) (rest : Bytes) :
  (textByte total b rest).warnings = [] ∨
    (textByte total b rest).warnings = [.finalEscape (position total (b :: rest))]
  := by
  rw [textByte.eq_def]
  split
  · cases rest with
    | nil => exact .inr rfl
    | cons c rest => exact .inl rfl
  · exact .inl rfl

/-- A byte of text with what it may begin. -/
theorem spread_textByte_of_cases {b : UInt8} {rest : Bytes} (h : b :: rest <:+ source)
    {ws : List Warning}
    (hws : ws = [] ∨ ws = [.malformedCount (position source.length (b :: rest))] ∨
      ws = [.strayQuantifier (position source.length (b :: rest))]) :
  Spread k (position source.length (b :: rest))
    (position source.length (textByte source.length b rest).rest)
    (ws ++ (textByte source.length b rest).warnings)
  := by
  apply (spread_byte hws (textByte_cases source.length b rest)).mono (Nat.le_refl _)
  apply position_lt_position h (suffix_textByte source.length b rest)

theorem spread_textByte {b : UInt8} {rest : Bytes} (h : b :: rest <:+ source) :
  Spread k (position source.length (b :: rest))
    (position source.length (textByte source.length b rest).rest)
    (textByte source.length b rest).warnings
  := spread_textByte_of_cases h (.inl rfl)

theorem spread_textUntil {stops : UInt8 → Bool} {s : Bytes} (h : s <:+ source) :
  Spread k (position source.length s)
    (position source.length (textUntil source.length stops s).rest)
    (textUntil source.length stops s).warnings
  := by
  fun_induction textUntil source.length stops s with
  | case1 => apply spread_nil
  | case2 => apply spread_nil
  | case3 b rest _ first more ih =>
      have hfirst := (suffix_textByte source.length b rest).trans (List.suffix_cons b rest)
      apply (spread_textByte h).behind (ih (hfirst.trans h)) hfirst
      apply suffix_textUntil

/-- A replacement stands behind its mark. -/
theorem spread_replacement_cons {stops : UInt8 → Bool} {b : UInt8} {rest : Bytes}
    (h : b :: rest <:+ source) :
  Spread k (position source.length rest)
    (position source.length (replacement source.length stops (b :: rest)).rest)
    (replacement source.length stops (b :: rest)).warnings
  := by
  rw [replacement]
  split
  · apply spread_textUntil ((List.suffix_cons b rest).trans h)
  · apply spread_nil

theorem spread_replacement {stops : UInt8 → Bool} {s : Bytes} (h : s <:+ source) :
  Spread k (position source.length s)
    (position source.length (replacement source.length stops s).rest)
    (replacement source.length stops s).warnings
  := by
  cases s with
  | nil => apply spread_nil
  | cons b rest =>
      apply (spread_replacement_cons h).mono _ (Nat.le_refl _)
      apply position_le_position (List.suffix_cons b rest)

theorem spread_moreText {inGroup : Bool} {s : Bytes} (h : s <:+ source) :
  Spread k (position source.length s)
    (position source.length (moreText source.length inGroup s).rest)
    (moreText source.length inGroup s).warnings
  := by
  fun_induction moreText source.length inGroup s with
  | case1 => apply spread_nil
  | case2 => apply spread_nil
  | case3 b rest _ first more ih =>
      have hfirst := (suffix_textByte source.length b rest).trans (List.suffix_cons b rest)
      have hbyte := spread_textByte_of_cases (k := k) h
        ((malformedCount_cases source.length (b :: rest)).imp_right Or.inl)
      apply hbyte.behind (ih (hfirst.trans h)) hfirst
      apply suffix_moreText

/-- A malformed count stands right behind what it does not repeat. -/
theorem spread_quantifier (s : Bytes) :
  Spread k (position source.length s)
    (position source.length (quantifier source.length s).rest + k.delay)
    (quantifier source.length s).warnings
  := by
  rw [quantifier]
  split
  · apply spread_nil
  · rcases malformedCount_cases source.length s with hnone | hbrace
    · rw [hnone]
      apply spread_nil
    · rw [hbrace]
      exact spread_singleton rfl (by decide) fun hk => ⟨Nat.le_refl _, hk ▸ Nat.lt_succ_self _⟩

/-- Warnings of an item that stand behind its first byte, and those of the quantifier. -/
theorem Spread.quantified {b : UInt8} {rest t : Bytes} {ws : List Warning}
    (h : Spread k (position source.length (b :: rest) + k.delay) (position source.length t) ws)
    (hb : b :: rest <:+ source) (ht : t <:+ rest) :
  Spread k (position source.length (b :: rest) + k.delay)
    (position source.length (quantifier source.length t).rest + k.delay)
    (ws ++ (quantifier source.length t).warnings)
  := by
  have hlt := position_lt_position hb ht
  have hdelay := k.delay_le
  have hle := position_le_position (suffix_quantifier source.length t) source.length
  apply h.append (spread_quantifier t)
  · omega
  · omega

/-- What stands behind the first byte of an item is late enough. -/
theorem Spread.inside {b : UInt8} {rest : Bytes} {stop : Nat} {ws : List Warning}
    (h : Spread k (position source.length rest) stop ws) (hb : b :: rest <:+ source) :
  Spread k (position source.length (b :: rest) + k.delay) stop ws
  := by
  have hlt := position_lt_position hb (List.suffix_refl rest)
  have hdelay := k.delay_le
  apply h.mono _ (Nat.le_refl stop)
  omega

theorem spread_textNodes {inGroup : Bool} {b : UInt8} {rest : Bytes} (h : b :: rest <:+ source) :
  Spread k (position source.length (b :: rest) + k.delay)
    (position source.length (textNodes source.length inGroup b rest).rest + k.delay)
    (textNodes source.length inGroup b rest).warnings
  := by
  have hfirst := suffix_textByte source.length b rest
  have hmore := suffix_moreText source.length inGroup (textByte source.length b rest).rest
  have hbyte := spread_textByte_of_cases (k := k) h
    ((strayQuantifier_cases source.length (b :: rest)).imp_right Or.inr)
  have hnone : positionsOf .malformedCount (strayQuantifier source.length (b :: rest) ++
      (textByte source.length b rest).warnings) = [] := by
    rw [positionsOf_append]
    rcases strayQuantifier_cases source.length (b :: rest) with hs | hs
    all_goals
      rcases textByte_cases source.length b rest with ht | ht
      all_goals
        rw [hs, ht]
        rfl
  have hrest := hfirst.trans ((List.suffix_cons b rest).trans h)
  have hlt := position_lt_position h hfirst
  have hdelay := k.delay_le
  apply Spread.quantified _ h (hmore.trans hfirst)
  apply (hbyte.later hnone).append (spread_moreText hrest)
  · omega
  · apply position_le_position hmore

/-! ### References and sets -/

theorem spread_members {s : Bytes} (h : s <:+ source) :
  Spread k (position source.length s)
    (position source.length (members source.length s).rest)
    (members source.length s).warnings
  := by
  fun_induction members source.length s with
  | case1 s text replaced here rest hafter more ih =>
      have htext := suffix_textUntil source.length Mark.endsMember s
      have hreplaced := suffix_replacement source.length Mark.endsMemberReplacement text.rest
      have hrest := suffix_of_after? hafter
      have hmore := (ih (hrest.trans (hreplaced.trans (htext.trans h)))).mono
        (position_le_position hrest _) (Nat.le_refl _)
      have hhere := (spread_textUntil (k := k) h).behind (spread_replacement (htext.trans h)) htext
        hreplaced
      apply hhere.behind hmore (hreplaced.trans htext)
      apply (suffix_members source.length rest).trans hrest
  | case2 s text replaced here hafter =>
      have htext := suffix_textUntil source.length Mark.endsMember s
      apply (spread_textUntil h).behind (spread_replacement (htext.trans h)) htext
      apply suffix_replacement

theorem spread_nameAndMembers {s : Bytes} (h : s <:+ source) :
  Spread k (position source.length s)
    (position source.length (nameAndMembers source.length s).rest)
    (nameAndMembers source.length s).warnings
  := by
  have hname := List.dropWhile_suffix (l := s) (!Mark.endsName ·)
  rw [nameAndMembers]
  dsimp only
  split
  · next rest hafter =>
    have hrest := (suffix_of_after? hafter).trans hname
    apply (spread_members (hrest.trans h)).mono _ (Nat.le_refl _)
    apply position_le_position hrest
  · apply spread_nil

theorem spread_setItem {b : UInt8} {rest : Bytes} (h : b :: rest <:+ source) :
  Spread k (position source.length (b :: rest))
    (position source.length (setItem source.length b rest).rest)
    (setItem source.length b rest).warnings
  := by
  have hfirst := (suffix_textByte source.length b rest).trans (List.suffix_cons b rest)
  rw [setItem]
  dsimp only
  split
  · next mark c rest' hrest =>
    rw [hrest] at hfirst
    have hspread := spread_textByte (k := k) h
    rw [hrest] at hspread
    split
    · have hc := List.suffix_cons mark (c :: rest')
      have hother := (spread_textByte (k := k) (hc.trans (hfirst.trans h))).mono
        (position_le_position hc _) (Nat.le_refl _)
      apply hspread.behind hother hfirst
      apply (suffix_textByte source.length c rest').trans
      apply (List.suffix_cons c rest').trans hc
    · exact hspread
  · apply spread_textByte h

/-- The items of a set; the warning that the set is not closed is of another kind. -/
theorem spread_setItems (hk : k.lacksMark = false) {pos : Nat} {first : Bool} {s : Bytes}
    (h : s <:+ source) :
  Spread k (position source.length s)
    (position source.length (setItems source.length pos first s).rest)
    (setItems source.length pos first s).warnings
  := by
  fun_induction setItems source.length pos first s with
  | case1 =>
      apply spread_of_none
      cases k with
      | unclosedSet => cases hk
      | _ => rfl
  | case2 => apply spread_nil
  | case3 first b rest _ item more ih =>
      have hitem := (suffix_setItem source.length b rest).trans (List.suffix_cons b rest)
      apply (spread_setItem h).behind (ih (hitem.trans h)) hitem
      apply suffix_setItems

theorem spread_reference (hk : k.lacksMark = false) {pos : Nat} {s : Bytes} (h : s <:+ source) :
  Spread k (position source.length s)
    (position source.length (reference source.length pos s).rest)
    (reference source.length pos s).warnings
  := by
  have hread := spread_nameAndMembers (k := k) h
  obtain ⟨rest, hclose, href⟩ | ⟨hrest, href⟩ := reference_cases source.length pos s
  · rw [href]
    apply hread.mono (Nat.le_refl _)
    apply position_le_position (suffix_of_after? hclose)
  · rw [hrest] at hread
    rw [href]
    apply hread.beside
    · apply spread_of_none
      cases k with
      | unclosedReference => cases hk
      | _ => rfl
    · right
      cases k with
      | unclosedReference => cases hk
      | _ => rfl

theorem spread_set (hk : k.lacksMark = false) {pos : Nat} {s : Bytes} (h : s <:+ source) :
  Spread k (position source.length s)
    (position source.length (set source.length pos s).rest)
    (set source.length pos s).warnings
  := by
  have htail : (if s.head? = some Mark.negate then s.tail else s) <:+ s := by
    split
    · apply List.tail_suffix
    · apply List.suffix_refl
  apply (spread_setItems hk (htail.trans h)).mono _ (Nat.le_refl _)
  apply position_le_position htail

/-! ### Items -/

theorem spread_branchEnd {b : UInt8} {rest : Bytes} (h : b :: rest <:+ source) :
  Spread k (position source.length (b :: rest) + k.delay)
    (position source.length (branchEnd source.length b rest).rest + k.delay)
    (branchEnd source.length b rest).warnings
  := by
  have hspread := (@spread_replacement_cons k source Mark.endsBranchReplacement b rest h).inside h
  generalize hreplaced :
    replacement source.length Mark.endsBranchReplacement (b :: rest) = replaced at hspread
  have hsuffix := suffix_replacement source.length Mark.endsBranchReplacement (b :: rest)
  rw [hreplaced] at hsuffix
  cases hrest : replaced.rest with
  | nil =>
      rw [hrest] at hspread
      rw [branchEnd_of_nil hreplaced hrest]
      apply hspread.mono (Nat.le_refl _) (Nat.le_add_right _ _)
  | cons d t =>
      rw [hrest] at hspread hsuffix
      have hlt := position_lt_position (hsuffix.trans h) (List.suffix_refl t)
      by_cases hd : d = Mark.comma
      · rw [branchEnd_of_comma hreplaced (hd ▸ hrest)]
        apply hspread.mono (Nat.le_refl _)
        dsimp only
        omega
      · rw [branchEnd_of_cons hreplaced hrest hd]
        have ht : t <:+ rest := by
          have htail := (List.suffix_cons d t).trans hsuffix
          apply List.suffix_of_suffix_length_le htail (List.suffix_cons b rest)
          exact Nat.le_of_succ_le_succ hsuffix.length_le
        apply (hspread.mono (Nat.le_refl _) (Nat.le_of_lt hlt)).quantified h ht

theorem spread_item (hk : k.lacksMark = false) {inGroup : Bool} {b : UInt8} {rest : Bytes}
    (h : b :: rest <:+ source) :
  Spread k (position source.length (b :: rest) + k.delay)
    (position source.length (item source.length inGroup b rest).rest + k.delay)
    (item source.length inGroup b rest).warnings
  := by
  have hrest := (List.suffix_cons b rest).trans h
  rcases item_cases inGroup b with hb | rfl | rfl | rfl | rfl | hb
  · rw [item_end rest hb]
    apply spread_branchEnd h
  · rw [item_groupOpen]
    apply spread_nil
  · rw [item_classOpen]
    apply ((spread_reference hk hrest).inside h).quantified h
    apply suffix_reference
  · rw [item_setOpen]
    apply ((spread_set hk hrest).inside h).quantified h
    apply suffix_set
  · rw [item_wildcard]
    apply spread_nil.quantified h (List.suffix_refl rest)
  · rw [item_text rest hb]
    apply spread_textNodes h

end Scans

end Source

end Respell
