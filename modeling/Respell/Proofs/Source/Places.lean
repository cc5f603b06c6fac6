import Mathlib.Data.List.Nodup
import Respell.Proofs.MissingMarks
import Respell.Proofs.Source.Causes
import Respell.Proofs.Source.Spread

/-!
# Where warnings stand

A reader goes through a source from the front, and each item warns about the part of the source
that it takes.  So no two warnings of a kind stand at the same place.  The warnings about groups
that are not closed are given in the end, but the groups themselves were opened at different
places.  A set or a reference that is not closed takes all that is left, so there is one at most.
-/

namespace Respell

namespace Source

open Warning (Kind)

/-! ### Marks that are missing -/

/-- The marks that are missing tell how many warnings there are of each kind. -/
theorem count_closers (ws : List Warning) :
  (closers ws).count Mark.groupClose = (positionsOf .unclosedGroup ws).length ∧
    (closers ws).count Mark.setClose = (positionsOf .unclosedSet ws).length ∧
    (closers ws).count Mark.classClose = (positionsOf .unclosedReference ws).length
  := by
  induction ws with
  | nil => exact ⟨rfl, rfl, rfl⟩
  | cons w ws ih =>
      obtain ⟨hgroup, hset, hclass⟩ := ih
      rw [← List.singleton_append, closers_append, positionsOf_append, positionsOf_append,
        positionsOf_append, List.count_append, List.count_append, List.count_append,
        List.length_append, List.length_append, List.length_append, hgroup, hset, hclass]
      cases w with
      | _ => exact ⟨rfl, rfl, rfl⟩

/-- Of the marks that close something an item lacks one at most, and not that of a group. -/
theorem closers_item (total : Nat) (inGroup : Bool) (b : UInt8) (rest : Bytes) :
  closers (item total inGroup b rest).warnings = [] ∨
    closers (item total inGroup b rest).warnings = [Mark.setClose] ∨
    closers (item total inGroup b rest).warnings = [Mark.classClose]
  := by
  rcases item_cases inGroup b with hb | rfl | rfl | rfl | rfl | hb
  · rw [item_end rest hb]
    exact .inl (closers_branchEnd total b rest)
  · rw [item_groupOpen]
    exact .inl rfl
  · rw [item_classOpen]
    dsimp only
    rw [closers_append, closers_quantifier, List.append_nil]
    generalize position total (Mark.classOpen :: rest) = pos
    obtain ⟨rest', -, href⟩ | ⟨-, href⟩ := reference_cases total pos rest
    · left
      rw [href]
      apply closers_nameAndMembers
    · right; right
      rw [href, closers_append, closers_nameAndMembers]
      rfl
  · rw [item_setOpen]
    dsimp only
    rw [closers_append, closers_quantifier, List.append_nil]
    rcases setItems_cases total _ true _ with hset | ⟨-, -, hset⟩
    · exact .inl hset
    · exact .inr (.inl hset)
  · rw [item_wildcard]
    exact .inl (closers_quantifier total rest)
  · rw [item_text rest hb]
    exact .inl (closers_textNodes total inGroup b rest)

/-! ### Readers -/

namespace Reader

/-- The positions of the groups that are said not to be closed, and of those that are open. -/
def groupPositions (r : Reader) : List Nat :=
  positionsOf .unclosedGroup r.warnings ++ r.opened.map (·.pos)

/-- In front of the position `n` the warnings of each kind stand at different places, the groups
were opened at different places, and each group with a number beyond the captures has a warning,
in the order of the numbers. -/
structure Placed (n : Nat) (r : Reader) : Prop where
  nodup : ∀ k : Kind, k.lacksMark = false → (positionsOf k r.warnings).Nodup
  lt : ∀ k : Kind, k.lacksMark = false → ∀ pos ∈ positionsOf k r.warnings, pos < n + k.delay
  groups_nodup : r.groupPositions.Nodup
  groups_lt : ∀ pos ∈ r.groupPositions, pos < n
  numbers : r.warnings.filterMap Warning.numberBeyond? =
    List.range' captureCount (r.groups + 1 - captureCount)

variable {n : Nat} {r : Reader}

theorem placed_start (lexicon : Lexicon) :
  (start lexicon).Placed 0
  where
  nodup _ _ := List.nodup_nil
  lt _ _ := List.forall_mem_nil _
  groups_nodup := List.nodup_nil
  groups_lt := List.forall_mem_nil _
  numbers := rfl

theorem Placed.warn (h : r.Placed n) {n' : Nat} (hn : n ≤ n') {ws : List Warning}
    (hspread : ∀ k : Kind, k.lacksMark = false → Spread k (n + k.delay) (n' + k.delay) ws)
    (hclosed : positionsOf .unclosedGroup ws = []) :
  (r.warn ws).Placed n'
  := by
  have hgroups : (r.warn ws).groupPositions = r.groupPositions := by
    rw [groupPositions, Reader.warn, positionsOf_append, hclosed, List.append_nil]
    rfl
  have hpositions : ∀ k, positionsOf k (r.warn ws).warnings =
      positionsOf k r.warnings ++ positionsOf k ws := fun k => positionsOf_append
  constructor
  · intro k hk
    rw [hpositions]
    apply List.nodup_append.mpr ⟨h.nodup k hk, (hspread k hk).nodup, _⟩
    intro pos hpos pos' hpos'
    have hlt := h.lt k hk pos hpos
    have hle := ((hspread k hk).within pos' hpos').2.1
    omega
  · intro k hk
    rw [hpositions]
    intro pos hpos
    rcases List.mem_append.mp hpos with hpos | hpos
    · have hlt := h.lt k hk pos hpos
      omega
    · exact ((hspread k hk).within pos hpos).2.2
  · rw [hgroups]
    exact h.groups_nodup
  · rw [hgroups]
    intro pos hpos
    exact Nat.lt_of_lt_of_le (h.groups_lt pos hpos) hn
  · have hnone : ws.filterMap Warning.numberBeyond? = [] := by
      apply List.filterMap_eq_nil_iff.mpr
      intro w hw
      cases w with
      | groupBeyondCaptures number pos =>
          have hpos := mem_positionsOf.mpr ⟨_, hw, rfl⟩
          exact absurd rfl ((hspread .groupBeyondCaptures rfl).within pos hpos).1
      | _ => rfl
    rw [Reader.warn, List.filterMap_append, hnone, List.append_nil]
    exact h.numbers

/-- A group may be closed, with a warning that tells where it was opened. -/
theorem Placed.close (h : r.Placed n) {r' : Reader} (ws : List Warning)
    (hwarnings : r'.warnings = r.warnings ++ ws) (hws : ∀ w ∈ ws, ∃ pos, w = .unclosedGroup pos)
    (hgroups : r'.groups = r.groups) (hpositions : r'.groupPositions.Sublist r.groupPositions) :
  r'.Placed n
  := by
  have hsame : ∀ k : Kind, k.lacksMark = false →
      positionsOf k r'.warnings = positionsOf k r.warnings := by
    intro k hk
    have hnone : positionsOf k ws = [] := by
      apply List.eq_nil_iff_forall_not_mem.mpr
      intro pos hpos
      obtain ⟨w, hw, hplace⟩ := mem_positionsOf.mp hpos
      obtain ⟨_, rfl⟩ := hws w hw
      cases hplace
      cases hk
    rw [hwarnings, positionsOf_append, hnone, List.append_nil]
  constructor
  · intro k hk
    rw [hsame k hk]
    exact h.nodup k hk
  · intro k hk
    rw [hsame k hk]
    exact h.lt k hk
  · exact h.groups_nodup.sublist hpositions
  · intro pos hpos
    exact h.groups_lt pos (hpositions.subset hpos)
  · have hnone : ws.filterMap Warning.numberBeyond? = [] := by
      apply List.filterMap_eq_nil_iff.mpr
      intro w hw
      obtain ⟨_, rfl⟩ := hws w hw
      rfl
    rw [hwarnings, hgroups, List.filterMap_append, hnone, List.append_nil]
    exact h.numbers

/-- A group begins where the part of the source ends that was read before. -/
theorem Placed.openGroup (h : r.Placed n) :
  (r.openGroup n).Placed (n + 1)
  := by
  have hwarnings : (r.openGroup n).warnings = r.warnings ++ r.added n .groupOpen := rfl
  have hpositions : ∀ k, positionsOf k (r.openGroup n).warnings = positionsOf k r.warnings ∨
      k = .groupBeyondCaptures ∧
        positionsOf k (r.openGroup n).warnings = positionsOf k r.warnings ++ [n] := by
    intro k
    rw [hwarnings, positionsOf_append, added]
    split
    · exact .inl (List.append_nil _)
    · cases k with
      | groupBeyondCaptures => exact .inr ⟨rfl, rfl⟩
      | _ => exact .inl (List.append_nil _)
  have hgroups : (r.openGroup n).groupPositions =
      positionsOf .unclosedGroup r.warnings ++ n :: r.opened.map (·.pos) := by
    have hsame := (hpositions .unclosedGroup).resolve_right fun h => absurd h.1 (by decide)
    rw [groupPositions, hsame]
    rfl
  constructor
  · intro k hk
    obtain hsame | ⟨rfl, hmore⟩ := hpositions k
    · rw [hsame]
      exact h.nodup k hk
    · rw [hmore]
      apply List.nodup_append.mpr ⟨h.nodup _ hk, List.pairwise_singleton _ n, _⟩
      intro pos hpos pos' hpos'
      have hlt : pos < n := h.lt _ hk pos hpos
      have heq := List.mem_singleton.mp hpos'
      omega
  · intro k hk pos hpos
    obtain hsame | ⟨rfl, hmore⟩ := hpositions k
    · rw [hsame] at hpos
      have hlt := h.lt k hk pos hpos
      omega
    · rw [hmore, List.mem_append, List.mem_singleton] at hpos
      rcases hpos with hpos | rfl
      · exact Nat.lt_succ_of_lt (h.lt _ hk pos hpos)
      · apply Nat.lt_succ_self
  · rw [hgroups]
    apply List.perm_middle.nodup_iff.mpr
    apply List.nodup_cons.mpr ⟨_, h.groups_nodup⟩
    intro hn
    exact Nat.lt_irrefl n (h.groups_lt n hn)
  · rw [hgroups]
    intro pos hpos
    rcases List.mem_cons.mp (List.perm_middle.mem_iff.mp hpos) with rfl | hpos
    · apply Nat.lt_succ_self
    · exact Nat.lt_succ_of_lt (h.groups_lt pos hpos)
  · rw [hwarnings, List.filterMap_append, h.numbers, added]
    change _ = List.range' captureCount (r.groups + 1 + 1 - captureCount)
    split
    · next hlt =>
      rw [Nat.sub_eq_zero_of_le hlt, Nat.sub_eq_zero_of_le (Nat.le_of_lt hlt)]
      rfl
    · next hle =>
      have hle := Nat.le_of_not_lt hle
      rw [Nat.succ_sub hle, List.range'_concat, Nat.one_mul, Nat.add_sub_cancel' hle]
      rfl

theorem Placed.endBranch (h : r.Placed n) (replacement : Option Bytes) :
  (r.endBranch replacement).Placed n
  := by
  cases hg : r.opened with
  | nil =>
      rw [r.endBranch_of_nil hg]
      apply h
  | cons g outer =>
      rw [r.endBranch_of_opened hg]
      apply h.close []
      · exact (List.append_nil _).symm
      · apply List.forall_mem_nil
      · rfl
      · rw [groupPositions, groupPositions, hg]
        apply List.Sublist.refl

theorem Placed.closeGroup (h : r.Placed n) (reps : Reps) :
  (r.closeGroup reps).Placed n
  := by
  rw [Reader.closeGroup]
  split
  · apply h
  · next g outer hg =>
    apply h.close []
    · exact (List.append_nil _).symm
    · apply List.forall_mem_nil
    · rfl
    · rw [groupPositions, groupPositions, hg]
      apply (List.sublist_cons_self g.pos _).append_left

/-- The group of which the warning tells was open. -/
theorem Placed.abandonGroup (h : r.Placed n) :
  r.abandonGroup.Placed n
  := by
  rw [Reader.abandonGroup]
  split
  · apply h
  · next g outer hg =>
    have hclosed : (r.closeGroup .once).warn [.unclosedGroup g.pos] =
        { r with
          chain := g.before ++ [.group g.number g.branches .once]
          opened := outer
          warnings := r.warnings ++ [.unclosedGroup g.pos] } := by
      rw [Reader.closeGroup, hg]
      rfl
    rw [hclosed]
    apply h.close [.unclosedGroup g.pos]
    · rfl
    · exact List.forall_mem_singleton.mpr ⟨g.pos, rfl⟩
    · rfl
    · rw [groupPositions, groupPositions, hg, positionsOf_append, List.append_assoc]
      apply List.Sublist.refl

theorem Placed.take (h : r.Placed n) {i : Item} (hi : i ≠ .groupOpen) (pos : Nat) :
  (r.take pos i).Placed n
  := by
  cases i with
  | groupOpen => exact absurd rfl hi
  | branchEnd replacement => apply h.endBranch
  | groupClose replacement reps => apply (h.endBranch replacement).closeGroup
  | cutOff replacement => apply (h.endBranch replacement).abandonGroup
  | reference ref reps => exact ⟨h.nodup, h.lt, h.groups_nodup, h.groups_lt, h.numbers⟩
  | nodes nodes => exact ⟨h.nodup, h.lt, h.groups_nodup, h.groups_lt, h.numbers⟩

theorem Placed.finish (h : r.Placed n) :
  r.finish.Placed n
  := by
  rw [Reader.finish]
  generalize r.opened = opened
  induction opened generalizing r with
  | nil => apply h
  | cons g opened ih => apply ih (h.endBranch none).abandonGroup

variable {source : Bytes}

/-- The item in front of what is left warns about places in the part of the source that it
takes. -/
theorem Placed.item {b : UInt8} {rest : Bytes}
    (h : r.Placed (position source.length (b :: rest))) (hs : b :: rest <:+ source) :
  let scan := item source.length r.inGroup b rest
  ((r.warn scan.warnings).take (position source.length (b :: rest)) scan.value).Placed
    (position source.length scan.rest)
  := by
  intro scan
  by_cases hopen : scan.value = .groupOpen
  · have hscan : scan = ⟨.groupOpen, rest, []⟩ := by
      obtain rfl := groupOpen_of_item hopen
      apply item_groupOpen
    have hnext : position source.length rest = position source.length (b :: rest) + 1 := by
      have hlength := hs.length_le
      rw [List.length_cons] at hlength
      rw [position, position, List.length_cons]
      omega
    have hwarn : r.warn [] = r := congrArg r.withWarnings (List.append_nil _)
    rw [hscan, hwarn, hnext]
    apply h.openGroup
  · have hrest := (suffix_item source.length r.inGroup b rest).trans (List.suffix_cons b rest)
    apply (h.warn (position_le_position hrest _) (fun k hk => spread_item hk hs) _).take hopen
    apply List.eq_nil_of_length_eq_zero
    rw [← (count_closers _).1]
    rcases closers_item source.length r.inGroup b rest with hnone | hset | hclass
    · rw [hnone]
      rfl
    · rw [hset]
      rfl
    · rw [hclass]
      rfl

theorem Placed.read {s : Bytes} (h : r.Placed (position source.length s)) (hs : s <:+ source) :
  (r.read source.length s).Placed source.length
  := by
  fun_induction Reader.read source.length r s with
  | case1 r => apply h.finish
  | case2 r b rest scan ih =>
      apply ih (h.item hs)
      apply (suffix_item source.length r.inGroup b rest).trans
      apply (List.suffix_cons b rest).trans hs

/-! ### Sets and references that are not closed -/

/-- How many warnings there are about sets and references. -/
def unclosedItems (ws : List Warning) : Nat :=
  (positionsOf .unclosedSet ws).length + (positionsOf .unclosedReference ws).length

theorem unclosedItems_append (ws ws' : List Warning) :
  unclosedItems (ws ++ ws') = unclosedItems ws + unclosedItems ws'
  := by
  rw [unclosedItems, positionsOf_append, positionsOf_append, List.length_append,
    List.length_append, unclosedItems, unclosedItems]
  omega

/-- An item that is not closed is the last one. -/
theorem unclosedItems_item (total : Nat) (inGroup : Bool) (b : UInt8) (rest : Bytes) :
  let scan := item total inGroup b rest
  unclosedItems scan.warnings = 0 ∨ unclosedItems scan.warnings = 1 ∧ scan.rest = []
  := by
  intro scan
  obtain ⟨-, hset, hclass⟩ := count_closers scan.warnings
  have hlast : closers scan.warnings ≠ [] → scan.rest = [] :=
    fun hne => rest_of_item rfl (List.append_ne_nil_of_left_ne_nil hne _)
  rw [unclosedItems, ← hset, ← hclass]
  rcases closers_item total inGroup b rest with hnone | hone | hone
  · left
    rw [hnone]
    rfl
  · right
    rw [hone] at hlast ⊢
    exact ⟨rfl, hlast (List.cons_ne_nil _ _)⟩
  · right
    rw [hone] at hlast ⊢
    exact ⟨rfl, hlast (List.cons_ne_nil _ _)⟩

theorem unclosedItems_added (pos : Nat) (i : Item) :
  unclosedItems (r.added pos i) = 0
  := by
  rw [added.eq_def]
  split
  · split
    · rfl
    · rfl
  · cases r.opened with
    | nil => rfl
    | cons g outer => rfl
  · rfl

theorem unclosedItems_unclosed (r : Reader) :
  unclosedItems r.unclosed = 0
  := by
  rw [unclosed]
  induction r.opened with
  | nil => rfl
  | cons g outer ih =>
      rw [List.map_cons, ← List.singleton_append, unclosedItems_append, ih]
      rfl

/-- While something is left to read all sets and references were closed. -/
theorem unclosedItems_read (h : unclosedItems r.warnings = 0) (total : Nat) (s : Bytes) :
  unclosedItems (r.read total s).warnings ≤ 1
  := by
  fun_induction Reader.read total r s with
  | case1 r =>
      rw [warnings_finish, unclosedItems_append, unclosedItems_unclosed, h]
      apply Nat.zero_le
  | case2 r b rest scan ih =>
      have htaken : unclosedItems ((r.warn scan.warnings).take (position total (b :: rest))
          scan.value).warnings = unclosedItems scan.warnings := by
        rw [warnings_take, unclosedItems_append, unclosedItems_added, warn, unclosedItems_append, h]
        omega
      rcases unclosedItems_item total r.inGroup b rest with hnone | ⟨hone, hrest⟩
      · apply ih
        rw [htaken]
        exact hnone
      · have hnil : scan.rest = [] := hrest
        rw [hnil, Reader.read, warnings_finish, unclosedItems_append, unclosedItems_unclosed,
          htaken]
        exact Nat.le_of_eq hone

end Reader

end Source

namespace Warning

/-- The position that a warning tells is that of the byte which causes it. -/
theorem CausedIn.exists_place {source : Bytes} {w : Warning} (h : w.CausedIn source) :
  ∃ k pos, w.place? = some (k, pos) ∧ pos < source.length
  := by
  have hlt : ∀ {pos : Nat} {b : UInt8}, source[pos]? = some b → pos < source.length :=
    fun hb => (List.getElem?_eq_some_iff.mp hb).1
  cases w with
  | strayQuantifier pos =>
      obtain ⟨b, -, hb⟩ := h
      exact ⟨_, pos, rfl, hlt hb⟩
  | finalEscape pos => exact ⟨_, pos, rfl, hlt h.1⟩
  | groupBeyondCaptures number pos => exact ⟨_, pos, rfl, hlt h.1⟩
  | noSuchGroup index => exact h.elim
  | captureNotSet index => exact h.elim
  | _ pos => exact ⟨_, pos, rfl, hlt h⟩

end Warning

/-- Each warning of a reading tells a position in the source, at which the byte stands that causes
it, and no other warning of its kind tells the same one.  At most one set or reference is not
closed.  The groups with a number beyond the captures have a warning each, in their order. -/
theorem Reading.places_of_warnings (source : Bytes) (lexicon : Lexicon) :
  let r := ofSource source lexicon
  (∀ w ∈ r.warnings, w.CausedIn source ∧ ∃ k pos, w.place? = some (k, pos) ∧ pos < source.length) ∧
    (∀ k, (Source.positionsOf k r.warnings).Nodup) ∧
    (Source.positionsOf .unclosedSet r.warnings).length +
      (Source.positionsOf .unclosedReference r.warnings).length ≤ 1 ∧
    r.warnings.filterMap Warning.numberBeyond? =
      List.range' captureCount (r.pattern.groups + 1 - captureCount)
  := by
  intro r
  have hstart : (Source.Reader.start lexicon).Placed
      (Source.position source.length source) := by
    rw [Source.position, Nat.sub_self]
    apply Source.Reader.placed_start
  have hread := hstart.read (List.suffix_refl source)
  have hitems : Source.Reader.unclosedItems r.warnings ≤ 1 :=
    Source.Reader.unclosedItems_read rfl source.length source
  refine ⟨?_, ?_, hitems, hread.numbers⟩
  · intro w hw
    have hcaused := causedIn_of_mem_warnings source lexicon w hw
    exact ⟨hcaused, hcaused.exists_place⟩
  · intro k
    cases k with
    | unclosedGroup => exact hread.groups_nodup.sublist (List.sublist_append_left _ _)
    | unclosedSet =>
        apply List.nodup_iff_count_le_one.mpr
        intro pos
        apply Nat.le_trans List.count_le_length (Nat.le_trans (Nat.le_add_right _ _) hitems)
    | unclosedReference =>
        apply List.nodup_iff_count_le_one.mpr
        intro pos
        apply Nat.le_trans List.count_le_length (Nat.le_trans (Nat.le_add_left _ _) hitems)
    | _ => exact hread.nodup _ rfl

end Respell
