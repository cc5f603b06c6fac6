import Respell.Proofs.Lexicon
import Respell.Reading

/-!
# What items do to a reader

Most items of a pattern change the chain and the open groups of a reader only, and of the groups
only the innermost one.  Classes are changed by the items that refer to one, and by nothing else.
So reading a pattern does nothing to a lexicon but refer to some of its classes one after the
other.
-/

namespace Respell

namespace Source

/-- The reference that an item is, if it is one. -/
def Item.reference? : Item → Option Reference
  | reference ref _ => some ref
  | _ => none

/-- The number of groups around the place behind an item, if there are `n` of them around the
place in front of it. -/
def Item.depthBehind (n : Nat) : Item → Nat
  | groupOpen => n + 1
  | groupClose _ _ => n - 1
  | cutOff _ => n - 1
  | _ => n

namespace Reader

/-- The reader with other warnings. -/
def withWarnings (r : Reader) (ws : List Warning) : Reader := { r with warnings := ws }

/-! ### Groups that are open -/

/-- Where no group is open there is none to end. -/
theorem endBranch_of_nil (r : Reader) (hg : r.opened = []) (replacement : Option Bytes) :
  r.endBranch replacement = r
  := by
  rw [endBranch, hg]

theorem closeGroup_of_nil (r : Reader) (hg : r.opened = []) (reps : Reps) :
  r.closeGroup reps = r
  := by
  rw [closeGroup, hg]

theorem abandonGroup_of_nil (r : Reader) (hg : r.opened = []) :
  r.abandonGroup = r
  := by
  rw [abandonGroup, hg]

theorem finish_of_nil (r : Reader) (hg : r.opened = []) :
  r.finish = r
  := by
  rw [finish, hg]
  rfl

theorem endBranch_of_opened (r : Reader) {g : OpenGroup} {outer : List OpenGroup}
    (hg : r.opened = g :: outer) (replacement : Option Bytes) :
  r.endBranch replacement = { r with
    chain := []
    opened := { g with branches := g.branches ++ [⟨r.chain, replacement⟩] } :: outer }
  := by
  rw [endBranch, hg]

/-- Where the pattern ends the innermost group is closed with a warning. -/
theorem abandonGroup_of_opened (r : Reader) {g : OpenGroup} {outer : List OpenGroup}
    (hg : r.opened = g :: outer) (replacement : Option Bytes) :
  (r.endBranch replacement).abandonGroup =
    ((r.endBranch replacement).closeGroup .once).withWarnings
      (r.warnings ++ [.unclosedGroup g.pos])
  := by
  rw [r.endBranch_of_opened hg]
  rfl

/-- The end of the pattern is the end of one group after the other. -/
theorem finish_of_opened {r : Reader} {g : OpenGroup} {outer : List OpenGroup}
    (hg : r.opened = g :: outer) :
  ((r.endBranch none).abandonGroup).opened = outer ∧
    r.finish = ((r.endBranch none).abandonGroup).finish
  := by
  have hopened : ((r.endBranch none).abandonGroup).opened = outer := by
    rw [r.abandonGroup_of_opened hg, r.endBranch_of_opened hg]
    rfl
  use hopened
  rw [finish, finish, hopened, hg]
  rfl

theorem length_opened_endBranch (r : Reader) (replacement : Option Bytes) :
  (r.endBranch replacement).opened.length = r.opened.length
  := by
  cases hg : r.opened with
  | nil => rw [r.endBranch_of_nil hg, hg]
  | cons g outer =>
      rw [r.endBranch_of_opened hg]
      rfl

theorem length_opened_closeGroup (r : Reader) (reps : Reps) :
  (r.closeGroup reps).opened.length = r.opened.length - 1
  := by
  rw [closeGroup]
  split
  · next hg =>
    rw [hg]
    rfl
  · next g outer hg =>
    rw [hg]
    rfl

theorem length_opened_abandonGroup (r : Reader) :
  r.abandonGroup.opened.length = r.opened.length - 1
  := by
  rw [abandonGroup]
  split
  · next hg =>
    rw [hg]
    rfl
  · apply length_opened_closeGroup

theorem length_opened_take (r : Reader) (pos : Nat) (i : Item) :
  (r.take pos i).opened.length = i.depthBehind r.opened.length
  := by
  cases i with
  | groupOpen => rfl
  | branchEnd replacement => apply length_opened_endBranch
  | groupClose replacement reps =>
      rw [take, length_opened_closeGroup, length_opened_endBranch]
      rfl
  | cutOff replacement =>
      rw [take, length_opened_abandonGroup, length_opened_endBranch]
      rfl
  | reference ref reps => rfl
  | nodes nodes => rfl

/-! ### Classes -/

/-- The end of a branch changes the chain and the open groups only. -/
theorem exists_endBranch (r : Reader) (replacement : Option Bytes) :
  ∃ chain opened, r.endBranch replacement = { r with chain, opened }
  := by
  rw [endBranch]
  split
  · use r.chain, r.opened
  · next g outer _ => exact ⟨_, _, rfl⟩

/-- The end of a group changes the chain and the open groups only. -/
theorem exists_closeGroup (r : Reader) (reps : Reps) :
  ∃ chain opened, r.closeGroup reps = { r with chain, opened }
  := by
  rw [closeGroup]
  split
  · use r.chain, r.opened
  · next g outer _ => exact ⟨_, _, rfl⟩

@[simp]
theorem lexicon_endBranch (r : Reader) (replacement : Option Bytes) :
  (r.endBranch replacement).lexicon = r.lexicon
  := by
  obtain ⟨chain, opened, h⟩ := r.exists_endBranch replacement
  rw [h]

@[simp]
theorem lexicon_closeGroup (r : Reader) (reps : Reps) :
  (r.closeGroup reps).lexicon = r.lexicon
  := by
  obtain ⟨chain, opened, h⟩ := r.exists_closeGroup reps
  rw [h]

@[simp]
theorem lexicon_abandonGroup (r : Reader) :
  r.abandonGroup.lexicon = r.lexicon
  := by
  rw [abandonGroup]
  split
  · rfl
  · apply lexicon_closeGroup

/-- An item changes the classes if it refers to one. -/
theorem lexicon_take (r : Reader) (pos : Nat) (item : Item) :
  (r.take pos item).lexicon = item.reference?.toList.foldl Lexicon.declare r.lexicon
  := by
  cases item with
  | groupOpen => rfl
  | branchEnd replacement => apply lexicon_endBranch
  | groupClose replacement reps =>
      rw [take, lexicon_closeGroup, lexicon_endBranch]
      rfl
  | cutOff replacement =>
      rw [take, lexicon_abandonGroup, lexicon_endBranch]
      rfl
  | reference ref reps => rfl
  | nodes nodes => rfl

theorem lexicon_finish (r : Reader) :
  r.finish.lexicon = r.lexicon
  := by
  rw [finish]
  induction r.opened generalizing r with
  | nil => rfl
  | cons g opened ih => rw [List.foldl_cons, ih, lexicon_abandonGroup, lexicon_endBranch]

/-- The references among the items of the rest of a pattern, which has `total` bytes, in order. -/
def referencesIn (total : Nat) (r : Reader) : Bytes → List Reference
  | [] => []
  | b :: rest =>
    let scan := item total r.inGroup b rest
    scan.value.reference?.toList ++
      ((r.warn scan.warnings).take (position total (b :: rest)) scan.value).referencesIn total
        scan.rest
  termination_by s => s.length
  decreasing_by apply Nat.lt_succ_of_le (length_item_le total r.inGroup b rest)

/-- Reading refers to some classes one after the other. -/
theorem lexicon_read (total : Nat) (r : Reader) (s : Bytes) :
  (r.read total s).lexicon = (r.referencesIn total s).foldl Lexicon.declare r.lexicon
  := by
  fun_induction read total r s with
  | case1 r =>
      rw [referencesIn]
      apply lexicon_finish
  | case2 r b rest scan ih =>
      rw [referencesIn, ih, lexicon_take, List.foldl_append]
      rfl

end Reader

/-- The references in the source of a pattern, in order. -/
def referencesIn (source : Bytes) : List Reference :=
  (Reader.start .empty).referencesIn source.length source

end Source

end Respell
