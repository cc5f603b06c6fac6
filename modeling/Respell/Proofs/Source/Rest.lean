import Mathlib.Tactic.Common
import Respell.Source.Item

/-!
# What a scan leaves

A scan reads from the front.  So what it leaves is the end of what it was given, and in the end
every part of a pattern that is still to be read is what stands in the pattern from its position
on.  Of an item the first byte tells by which scans it is read.
-/

namespace Respell

namespace Source

/-- The end of a pattern is what stands there from its position on. -/
theorem drop_position {source s : Bytes} (h : s <:+ source) :
  source.drop (position source.length s) = s
  := (List.suffix_iff_eq_drop.mp h).symm

theorem suffix_of_after? {mark : UInt8} {s rest : Bytes} (h : after? mark s = some rest) :
  rest <:+ s
  := by
  cases s with
  | nil => cases h
  | cons b s =>
      rw [after?] at h
      split at h
      · cases h
        apply List.suffix_cons
      · cases h

/-! ### Text -/

theorem suffix_textByte (total : Nat) (b : UInt8) (rest : Bytes) :
  (textByte total b rest).rest <:+ rest
  := by
  unfold textByte
  split
  · split
    · apply List.suffix_cons
    · apply List.suffix_refl
  · apply List.suffix_refl

theorem suffix_textUntil (total : Nat) (stops : UInt8 → Bool) (s : Bytes) :
  (textUntil total stops s).rest <:+ s
  := by
  fun_induction textUntil total stops s with
  | case1 => apply List.suffix_refl
  | case2 => apply List.suffix_refl
  | case3 b rest h first more ih =>
      apply ih.trans
      apply (suffix_textByte total b rest).trans
      apply List.suffix_cons

theorem suffix_replacement (total : Nat) (stops : UInt8 → Bool) (s : Bytes) :
  (replacement total stops s).rest <:+ s
  := by
  cases s with
  | nil => apply List.suffix_refl
  | cons b rest =>
      rw [replacement]
      split
      · apply (suffix_textUntil total stops rest).trans
        apply List.suffix_cons
      · apply List.suffix_refl

theorem suffix_moreText (total : Nat) (inGroup : Bool) (s : Bytes) :
  (moreText total inGroup s).rest <:+ s
  := by
  fun_induction moreText total inGroup s with
  | case1 => apply List.suffix_refl
  | case2 => apply List.suffix_refl
  | case3 b rest h first more ih =>
      apply ih.trans
      apply (suffix_textByte total b rest).trans
      apply List.suffix_cons

/-! ### Quantifiers -/

theorem suffix_of_number? {s rest : Bytes} {n : Nat} (h : number? s = some (n, rest)) :
  rest <:+ s
  := by
  simp only [number?] at h
  split at h
  · cases h
  · cases h
    apply List.dropWhile_suffix

theorem suffix_of_count? {s rest : Bytes} {reps : Reps} (h : count? s = some (reps, rest)) :
  rest <:+ s
  := by
  rw [count?] at h
  split at h
  · cases h
  · next least t hleast =>
    have ht := suffix_of_number? hleast
    split at h
    · next hclose =>
      cases h
      apply (suffix_of_after? hclose).trans ht
    · cases h
    · next u _ hcomma =>
      have hu := (suffix_of_after? hcomma).trans ht
      split at h
      · next hclose =>
        cases h
        apply (suffix_of_after? hclose).trans hu
      · cases h
      · next most v _ hmost =>
        obtain ⟨rest', hclose, he⟩ := Option.map_eq_some_iff.mp h
        cases he
        apply (suffix_of_after? hclose).trans
        apply (suffix_of_number? hmost).trans hu

theorem suffix_quantifier (total : Nat) (s : Bytes) :
  (quantifier total s).rest <:+ s
  := by
  rw [quantifier]
  split
  · next reps rest h =>
    cases s with
    | nil => cases h
    | cons b s =>
        rw [quantifier?] at h
        have hrest : rest <:+ s := by
          split at h
          · cases h
            apply List.suffix_refl
          split at h
          · cases h
            apply List.suffix_refl
          split at h
          · cases h
            apply List.suffix_refl
          split at h
          · apply suffix_of_count? h
          · cases h
        apply hrest.trans
        apply List.suffix_cons
  · apply List.suffix_refl

/-! ### References and sets -/

theorem suffix_members (total : Nat) (s : Bytes) :
  (members total s).rest <:+ s
  := by
  fun_induction members total s with
  | case1 s text replaced here rest h more ih =>
      apply ih.trans
      apply (suffix_of_after? h).trans
      apply (suffix_replacement _ _ _).trans
      apply suffix_textUntil
  | case2 s text replaced here h =>
      apply (suffix_replacement _ _ _).trans
      apply suffix_textUntil

theorem suffix_nameAndMembers (total : Nat) (s : Bytes) :
  (nameAndMembers total s).rest <:+ s
  := by
  have hname := List.dropWhile_suffix (l := s) (!Mark.endsName ·)
  simp only [nameAndMembers]
  split
  · next rest h =>
    apply (suffix_members total rest).trans
    apply (suffix_of_after? h).trans hname
  · apply hname

theorem suffix_reference (total pos : Nat) (s : Bytes) :
  (reference total pos s).rest <:+ s
  := by
  simp only [reference]
  split
  · next rest h =>
    apply (suffix_of_after? h).trans
    apply suffix_nameAndMembers
  · apply suffix_nameAndMembers

theorem suffix_setItem (total : Nat) (b : UInt8) (rest : Bytes) :
  (setItem total b rest).rest <:+ rest
  := by
  have hone := suffix_textByte total b rest
  simp only [setItem]
  split
  · next mark c rest' he =>
    rw [he] at hone
    split
    · apply (suffix_textByte total c rest').trans
      apply List.IsSuffix.trans _ hone
      apply (List.suffix_cons c rest').trans
      apply List.suffix_cons
    · apply hone
  · apply hone

theorem suffix_setItems (total pos : Nat) (first : Bool) (s : Bytes) :
  (setItems total pos first s).rest <:+ s
  := by
  fun_induction setItems total pos first s with
  | case1 => apply List.suffix_refl
  | case2 => apply List.suffix_cons
  | case3 first b rest h item more ih =>
      apply ih.trans
      apply (suffix_setItem total b rest).trans
      apply List.suffix_cons

theorem suffix_set (total pos : Nat) (s : Bytes) :
  (set total pos s).rest <:+ s
  := by
  apply (suffix_setItems total pos true _).trans
  split
  · apply List.tail_suffix
  · apply List.suffix_refl

/-! ### Items -/

theorem suffix_textNodes (total : Nat) (inGroup : Bool) (b : UInt8) (rest : Bytes) :
  (textNodes total inGroup b rest).rest <:+ rest
  := by
  apply (suffix_quantifier total _).trans
  apply (suffix_moreText total inGroup _).trans
  apply suffix_textByte

theorem suffix_branchEnd (total : Nat) (b : UInt8) (rest : Bytes) :
  (branchEnd total b rest).rest <:+ rest
  := by
  have hreplaced := suffix_replacement total Mark.endsBranchReplacement (b :: rest)
  simp only [branchEnd]
  split
  · apply List.nil_suffix
  · next c rest' he =>
    rw [he] at hreplaced
    -- The byte that ends the replacement is read as well.
    have hrest : rest' <:+ rest := by
      rcases List.suffix_cons_iff.mp hreplaced with hreplaced | hreplaced
      · cases hreplaced
        apply List.suffix_refl
      · apply (List.suffix_cons c rest').trans hreplaced
    split
    · apply hrest
    · apply (suffix_quantifier total rest').trans hrest

/-- A run of text begins with this byte. -/
def BeginsText (inGroup : Bool) (b : UInt8) : Prop :=
  (inGroup && Mark.endsBranch b) = false ∧ Mark.beginsItem b = false

section Kinds

variable {total : Nat} {inGroup : Bool} {b : UInt8} (rest : Bytes)

theorem item_end (h : (inGroup && Mark.endsBranch b) = true) :
  item total inGroup b rest = branchEnd total b rest
  := if_pos h

theorem item_groupOpen :
  item total inGroup Mark.groupOpen rest = ⟨.groupOpen, rest, []⟩
  := by
  cases inGroup with
  | false => rfl
  | true => rfl

theorem item_classOpen :
  item total inGroup Mark.classOpen rest =
    let ref := reference total (position total (Mark.classOpen :: rest)) rest
    let reps := quantifier total ref.rest
    ⟨.reference ref.value reps.value, reps.rest, ref.warnings ++ reps.warnings⟩
  := by
  cases inGroup with
  | false => rfl
  | true => rfl

theorem item_setOpen :
  item total inGroup Mark.setOpen rest =
    let members := set total (position total (Mark.setOpen :: rest)) rest
    let reps := quantifier total members.rest
    ⟨.nodes [.leaf (.set members.value) reps.value], reps.rest,
      members.warnings ++ reps.warnings⟩
  := by
  cases inGroup with
  | false => rfl
  | true => rfl

theorem item_wildcard :
  item total inGroup Mark.wildcard rest =
    let reps := quantifier total rest
    ⟨.nodes [.leaf (.set .full) reps.value], reps.rest, reps.warnings⟩
  := by
  cases inGroup with
  | false => rfl
  | true => rfl

theorem item_text (h : BeginsText inGroup b) :
  item total inGroup b rest =
    let run := textNodes total inGroup b rest
    ⟨.nodes run.value, run.rest, run.warnings⟩
  := by
  obtain ⟨hend, hbegins⟩ := h
  simp only [Mark.beginsItem, Bool.or_eq_false_iff, decide_eq_false_iff_not] at hbegins
  rw [item, hend, if_neg Bool.false_ne_true, if_neg hbegins.1.1.1, if_neg hbegins.1.1.2,
    if_neg hbegins.1.2, if_neg hbegins.2]

variable (inGroup b)

/-- The first byte of an item tells what kind of item it is. -/
theorem item_cases :
  (inGroup && Mark.endsBranch b) = true ∨ b = Mark.groupOpen ∨ b = Mark.classOpen ∨
    b = Mark.setOpen ∨ b = Mark.wildcard ∨ BeginsText inGroup b
  := by
  cases hend : inGroup && Mark.endsBranch b with
  | true => exact .inl rfl
  | false =>
      right
      cases hbegins : Mark.beginsItem b with
      | false => exact .inr (.inr (.inr (.inr ⟨hend, hbegins⟩)))
      | true =>
          simp only [Mark.beginsItem, Bool.or_eq_true, decide_eq_true_eq] at hbegins
          rcases hbegins with ((h | h) | h) | h
          · exact .inl h
          · exact .inr (.inl h)
          · exact .inr (.inr (.inl h))
          · exact .inr (.inr (.inr (.inl h)))

variable {inGroup b}

/-- The item ends a branch. -/
def Item.endsBranch : Item → Bool
  | branchEnd _ => true
  | groupClose _ _ => true
  | cutOff _ => true
  | _ => false

/-- A branch ends within a group only. -/
theorem inGroup_of_item (h : (item total inGroup b rest).value.endsBranch = true) :
  inGroup = true
  := by
  rcases item_cases inGroup b with hb | rfl | rfl | rfl | rfl | hb
  · exact ((Bool.and_eq_true _ _).mp hb).1
  · rw [item_groupOpen] at h
    cases h
  · rw [item_classOpen] at h
    cases h
  · rw [item_setOpen] at h
    cases h
  · rw [item_wildcard] at h
    cases h
  · rw [item_text rest hb] at h
    cases h

/-- What an item is, as its first byte tells. -/
theorem item_value_cases (total : Nat) (inGroup : Bool) (b : UInt8) :
  (item total inGroup b rest).value.endsBranch = true ∨
    b = Mark.groupOpen ∧ (item total inGroup b rest).value = .groupOpen ∨
    (b = Mark.classOpen ∧ ∃ reps, (item total inGroup b rest).value =
      .reference (reference total (position total (b :: rest)) rest).value reps) ∨
    (∃ s reps, (item total inGroup b rest).value = .nodes [.leaf (.set s) reps]) ∨
    (item total inGroup b rest).value = .nodes (textNodes total inGroup b rest).value
  := by
  rcases item_cases inGroup b with hb | rfl | rfl | rfl | rfl | hb
  · left
    rw [item_end rest hb, branchEnd]
    dsimp only
    split
    · rfl
    · split
      · rfl
      · rfl
  · right; left
    exact ⟨rfl, congrArg Scan.value (item_groupOpen rest)⟩
  · right; right; left
    exact ⟨rfl, _, congrArg Scan.value (item_classOpen rest)⟩
  · right; right; right; left
    exact ⟨_, _, congrArg Scan.value (item_setOpen rest)⟩
  · right; right; right; left
    exact ⟨_, _, congrArg Scan.value (item_wildcard rest)⟩
  · right; right; right; right
    exact congrArg Scan.value (item_text rest hb)

end Kinds

/-- What an item leaves is the end of what stands behind its first byte. -/
theorem suffix_item (total : Nat) (inGroup : Bool) (b : UInt8) (rest : Bytes) :
  (item total inGroup b rest).rest <:+ rest
  := by
  rcases item_cases inGroup b with h | rfl | rfl | rfl | rfl | h
  · rw [item_end rest h]
    apply suffix_branchEnd
  · exact ⟨[], congrArg Scan.rest (item_groupOpen rest)⟩
  · rw [item_classOpen]
    apply (suffix_quantifier total _).trans
    apply suffix_reference
  · rw [item_setOpen]
    apply (suffix_quantifier total _).trans
    apply suffix_set
  · rw [item_wildcard]
    apply suffix_quantifier
  · rw [item_text rest h]
    apply suffix_textNodes

end Source

end Respell
