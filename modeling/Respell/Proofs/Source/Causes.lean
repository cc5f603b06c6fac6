import Respell.Proofs.Source.Reader
import Respell.Proofs.Source.Rest

/-!
# What causes a warning

Each warning about a source tells the position of the byte that causes it: the mark that is not
closed, the mark that quantifies nothing, or the escape mark at the end.  Every scan is given the
end of the source, so the positions that it counts are those in the source.
-/

namespace Respell

/-- The byte at the position of a warning is one that causes it.  Nothing in a source causes the
warnings about a template. -/
def Warning.CausedIn (source : Bytes) : Warning → Prop
  | unclosedGroup pos => source[pos]? = some Mark.groupOpen
  | unclosedSet pos => source[pos]? = some Mark.setOpen
  | unclosedReference pos => source[pos]? = some Mark.classOpen
  | malformedCount pos => source[pos]? = some Mark.countOpen
  | strayQuantifier pos =>
    ∃ b ∈ [Mark.optional, Mark.star, Mark.plus, Mark.countOpen], source[pos]? = some b
  | finalEscape pos => source[pos]? = some Mark.escape ∧ pos + 1 = source.length
  | groupBeyondCaptures number pos =>
    source[pos]? = some Mark.groupOpen ∧ captureCount ≤ number
  | noSuchGroup _ => False
  | captureNotSet _ => False

namespace Source

/-- The source causes each of the warnings. -/
def Caused (source : Bytes) (ws : List Warning) : Prop := ∀ w ∈ ws, w.CausedIn source

variable {source : Bytes}

theorem caused_nil :
  Caused source []
  := List.forall_mem_nil _

theorem caused_singleton {w : Warning} (h : w.CausedIn source) :
  Caused source [w]
  := List.forall_mem_singleton.mpr h

theorem Caused.append {ws ws' : List Warning} (h : Caused source ws) (h' : Caused source ws') :
  Caused source (ws ++ ws')
  := List.forall_mem_append.mpr ⟨h, h'⟩

/-- The position of a part of a source is that of its first byte. -/
theorem getElem?_position {b : UInt8} {rest : Bytes} (h : b :: rest <:+ source) :
  source[position source.length (b :: rest)]? = some b
  := by
  rw [← List.head?_drop, drop_position h, List.head?_cons]

/-! ### Text and quantifiers -/

theorem caused_textByte {b : UInt8} {rest : Bytes} (h : b :: rest <:+ source) :
  Caused source (textByte source.length b rest).warnings
  := by
  unfold textByte
  split
  · next hb =>
    split
    · apply caused_nil
    · apply caused_singleton
      have hlength := h.length_le
      rw [List.length_singleton] at hlength
      exact ⟨hb ▸ getElem?_position h, Nat.sub_add_cancel hlength⟩
  · apply caused_nil

theorem caused_textUntil {stops : UInt8 → Bool} {s : Bytes} (h : s <:+ source) :
  Caused source (textUntil source.length stops s).warnings
  := by
  fun_induction textUntil source.length stops s with
  | case1 => apply caused_nil
  | case2 => apply caused_nil
  | case3 b rest _ first more ih =>
      apply (caused_textByte h).append
      apply ih
      apply (suffix_textByte source.length b rest).trans
      apply (List.suffix_cons b rest).trans h

theorem caused_replacement {stops : UInt8 → Bool} {s : Bytes} (h : s <:+ source) :
  Caused source (replacement source.length stops s).warnings
  := by
  cases s with
  | nil => apply caused_nil
  | cons b rest =>
      rw [replacement]
      split
      · apply caused_textUntil ((List.suffix_cons b rest).trans h)
      · apply caused_nil

/-- A count that is malformed begins with its opening brace. -/
theorem caused_malformedCount {s : Bytes} (h : s <:+ source) :
  Caused source (malformedCount source.length s)
  := by
  rw [malformedCount]
  split
  · next hstarts =>
    rw [startsMalformedCount, Bool.and_eq_true, decide_eq_true_eq] at hstarts
    obtain ⟨rest, rfl⟩ := List.head?_eq_some_iff.mp hstarts.1
    apply caused_singleton
    exact getElem?_position h
  · apply caused_nil

theorem caused_quantifier {s : Bytes} (h : s <:+ source) :
  Caused source (quantifier source.length s).warnings
  := by
  rw [quantifier]
  split
  · apply caused_nil
  · apply caused_malformedCount h

/-- A quantifier begins with one of four marks. -/
theorem caused_strayQuantifier {b : UInt8} {rest : Bytes} (h : b :: rest <:+ source) :
  Caused source (strayQuantifier source.length (b :: rest))
  := by
  rw [strayQuantifier]
  split
  · next hstarts =>
    apply caused_singleton
    refine ⟨b, ?_, getElem?_position h⟩
    by_contra hnone
    simp only [List.mem_cons, List.not_mem_nil, or_false, not_or] at hnone
    rw [startsQuantifier, quantifier?, if_neg hnone.1, if_neg hnone.2.1, if_neg hnone.2.2.1,
      if_neg hnone.2.2.2] at hstarts
    cases hstarts
  · apply caused_nil

theorem caused_moreText {inGroup : Bool} {s : Bytes} (h : s <:+ source) :
  Caused source (moreText source.length inGroup s).warnings
  := by
  fun_induction moreText source.length inGroup s with
  | case1 => apply caused_nil
  | case2 => apply caused_nil
  | case3 b rest _ first more ih =>
      apply ((caused_malformedCount h).append (caused_textByte h)).append
      apply ih
      apply (suffix_textByte source.length b rest).trans
      apply (List.suffix_cons b rest).trans h

theorem caused_textNodes {inGroup : Bool} {b : UInt8} {rest : Bytes} (h : b :: rest <:+ source) :
  Caused source (textNodes source.length inGroup b rest).warnings
  := by
  have hfirst : (textByte source.length b rest).rest <:+ source :=
    (suffix_textByte source.length b rest).trans ((List.suffix_cons b rest).trans h)
  have hmore := (suffix_moreText source.length inGroup _).trans hfirst
  apply Caused.append _ (caused_quantifier hmore)
  apply Caused.append _ (caused_moreText hfirst)
  apply (caused_strayQuantifier h).append (caused_textByte h)

/-! ### References and sets -/

theorem caused_members {s : Bytes} (h : s <:+ source) :
  Caused source (members source.length s).warnings
  := by
  fun_induction members source.length s with
  | case1 s text replaced here rest hafter more ih =>
      have htext := (suffix_textUntil source.length Mark.endsMember s).trans h
      have hreplaced := (suffix_replacement source.length Mark.endsMemberReplacement _).trans htext
      apply ((caused_textUntil h).append (caused_replacement htext)).append
      apply ih ((suffix_of_after? hafter).trans hreplaced)
  | case2 s text replaced here hafter =>
      have htext := (suffix_textUntil source.length Mark.endsMember s).trans h
      apply (caused_textUntil h).append (caused_replacement htext)

theorem caused_nameAndMembers {s : Bytes} (h : s <:+ source) :
  Caused source (nameAndMembers source.length s).warnings
  := by
  have hname := (List.dropWhile_suffix (l := s) (!Mark.endsName ·)).trans h
  rw [nameAndMembers]
  dsimp only
  split
  · next rest hafter => apply caused_members ((suffix_of_after? hafter).trans hname)
  · apply caused_nil

/-- A reference begins behind its opening mark. -/
theorem caused_reference {s : Bytes} (h : Mark.classOpen :: s <:+ source) :
  Caused source
    (reference source.length (position source.length (Mark.classOpen :: s)) s).warnings
  := by
  have hs := (List.suffix_cons Mark.classOpen s).trans h
  rw [reference]
  split
  · apply caused_nameAndMembers hs
  · apply (caused_nameAndMembers hs).append
    apply caused_singleton
    exact getElem?_position h

theorem caused_setItem {b : UInt8} {rest : Bytes} (h : b :: rest <:+ source) :
  Caused source (setItem source.length b rest).warnings
  := by
  have hfirst := (suffix_textByte source.length b rest).trans ((List.suffix_cons b rest).trans h)
  rw [setItem]
  dsimp only
  split
  · next mark c rest' hrest =>
    rw [hrest] at hfirst
    split
    · apply (caused_textByte h).append
      apply caused_textByte ((List.suffix_cons mark _).trans hfirst)
    · apply caused_textByte h
  · apply caused_textByte h

theorem caused_setItems {pos : Nat} (hpos : source[pos]? = some Mark.setOpen) {first : Bool}
    {s : Bytes} (h : s <:+ source) :
  Caused source (setItems source.length pos first s).warnings
  := by
  fun_induction setItems source.length pos first s with
  | case1 =>
      apply caused_singleton
      exact hpos
  | case2 => apply caused_nil
  | case3 first b rest _ item more ih =>
      apply (caused_setItem h).append
      apply ih
      apply (suffix_setItem source.length b rest).trans
      apply (List.suffix_cons b rest).trans h

/-- A set begins behind its opening mark. -/
theorem caused_set {s : Bytes} (h : Mark.setOpen :: s <:+ source) :
  Caused source (set source.length (position source.length (Mark.setOpen :: s)) s).warnings
  := by
  have hs := (List.suffix_cons Mark.setOpen s).trans h
  apply caused_setItems (getElem?_position h)
  split
  · apply (List.tail_suffix s).trans hs
  · apply hs

/-! ### Items -/

theorem caused_branchEnd {b : UInt8} {rest : Bytes} (h : b :: rest <:+ source) :
  Caused source (branchEnd source.length b rest).warnings
  := by
  have hreplaced := (suffix_replacement source.length Mark.endsBranchReplacement _).trans h
  rw [branchEnd]
  dsimp only
  split
  · apply caused_replacement h
  · next c rest' hrest =>
    rw [hrest] at hreplaced
    split
    · apply caused_replacement h
    · apply (caused_replacement h).append
      apply caused_quantifier ((List.suffix_cons c rest').trans hreplaced)

theorem caused_item {inGroup : Bool} {b : UInt8} {rest : Bytes} (h : b :: rest <:+ source) :
  Caused source (item source.length inGroup b rest).warnings
  := by
  have hrest := (List.suffix_cons b rest).trans h
  rcases item_cases inGroup b with hb | rfl | rfl | rfl | rfl | hb
  · rw [item_end rest hb]
    apply caused_branchEnd h
  · rw [item_groupOpen]
    apply caused_nil
  · rw [item_classOpen]
    apply (caused_reference h).append
    apply caused_quantifier ((suffix_reference _ _ rest).trans hrest)
  · rw [item_setOpen]
    apply (caused_set h).append
    apply caused_quantifier ((suffix_set _ _ rest).trans hrest)
  · rw [item_wildcard]
    apply caused_quantifier hrest
  · rw [item_text rest hb]
    apply caused_textNodes h

/-- A group begins with its opening mark. -/
theorem groupOpen_of_item {total : Nat} {inGroup : Bool} {b : UInt8} {rest : Bytes}
    (h : (item total inGroup b rest).value = .groupOpen) :
  b = Mark.groupOpen
  := by
  rcases item_value_cases rest total inGroup b with h' | ⟨hb, -⟩ | ⟨-, _, h'⟩ | ⟨_, _, h'⟩ | h'
  · rw [h] at h'
    cases h'
  · exact hb
  · cases h.symm.trans h'
  · cases h.symm.trans h'
  · cases h.symm.trans h'

/-! ### Readers -/

namespace Reader

/-- The source causes all warnings that were given, and the groups that are open begin with their
opening marks. -/
structure Caused (source : Bytes) (r : Reader) : Prop where
  warnings : Source.Caused source r.warnings
  opened : ∀ g ∈ r.opened, source[g.pos]? = some Mark.groupOpen

variable {r : Reader}

theorem Caused.warn (h : r.Caused source) {ws : List Warning} (hws : Source.Caused source ws) :
  (r.warn ws).Caused source
  := ⟨h.warnings.append hws, h.opened⟩

theorem Caused.openGroup (h : r.Caused source) {pos : Nat}
    (hpos : source[pos]? = some Mark.groupOpen) :
  (r.openGroup pos).Caused source
  where
  opened := List.forall_mem_cons.mpr ⟨hpos, h.opened⟩
  warnings := by
    apply h.warnings.append
    split
    · apply caused_nil
    · next hnumber =>
      apply caused_singleton
      exact ⟨hpos, Nat.le_of_not_lt hnumber⟩

theorem Caused.endBranch (h : r.Caused source) (replacement : Option Bytes) :
  (r.endBranch replacement).Caused source
  := by
  cases hg : r.opened with
  | nil =>
      rw [r.endBranch_of_nil hg]
      apply h
  | cons g outer =>
      have hopened := h.opened
      rw [hg] at hopened
      rw [r.endBranch_of_opened hg]
      exact ⟨h.warnings, List.forall_mem_cons.mpr (List.forall_mem_cons.mp hopened)⟩

theorem Caused.closeGroup (h : r.Caused source) (reps : Reps) :
  (r.closeGroup reps).Caused source
  := by
  rw [Reader.closeGroup]
  split
  · apply h
  · next g outer hg =>
    have hopened := h.opened
    rw [hg] at hopened
    exact ⟨h.warnings, (List.forall_mem_cons.mp hopened).2⟩

theorem Caused.abandonGroup (h : r.Caused source) :
  r.abandonGroup.Caused source
  := by
  rw [Reader.abandonGroup]
  split
  · apply h
  · next g outer hg =>
    apply (h.closeGroup .once).warn
    apply caused_singleton
    apply h.opened g
    rw [hg]
    apply List.mem_cons_self

/-- After an item the source has caused all warnings, if the item begins a group at an opening
mark. -/
theorem Caused.take (h : r.Caused source) {pos : Nat} {i : Item}
    (hpos : i = .groupOpen → source[pos]? = some Mark.groupOpen) :
  (r.take pos i).Caused source
  := by
  cases i with
  | groupOpen => apply h.openGroup (hpos rfl)
  | branchEnd replacement => apply h.endBranch
  | groupClose replacement reps => apply (h.endBranch _).closeGroup
  | cutOff replacement => apply (h.endBranch _).abandonGroup
  | reference ref reps => exact ⟨h.warnings, h.opened⟩
  | nodes nodes => exact ⟨h.warnings, h.opened⟩

theorem Caused.finish (h : r.Caused source) :
  r.finish.Caused source
  := by
  rw [Reader.finish]
  generalize r.opened = opened
  induction opened generalizing r with
  | nil => apply h
  | cons g opened ih => apply ih (h.endBranch none).abandonGroup

theorem Caused.read (h : r.Caused source) {s : Bytes} (hs : s <:+ source) :
  (r.read source.length s).Caused source
  := by
  fun_induction Reader.read source.length r s with
  | case1 r => apply h.finish
  | case2 r b rest scan ih =>
      apply ih
      · apply (h.warn (caused_item hs)).take
        intro hopen
        have hb : b = Mark.groupOpen := groupOpen_of_item hopen
        rw [getElem?_position hs, hb]
      · apply (suffix_item source.length r.inGroup b rest).trans
        apply (List.suffix_cons b rest).trans hs

end Reader

end Source

/-- Each warning of a reading points at the byte of the source that causes it. -/
theorem Reading.causedIn_of_mem_warnings (source : Bytes) (lexicon : Lexicon) :
  ∀ w ∈ (ofSource source lexicon).warnings, w.CausedIn source
  := by
  have hstart : (Source.Reader.start lexicon).Caused source :=
    ⟨Source.caused_nil, List.forall_mem_nil _⟩
  exact (hstart.read (List.suffix_refl source)).warnings

end Respell
