import Mathlib.Tactic.Common
import Respell.Proofs.Pattern.Node
import Respell.Reading

/-!
# The leaves of what is read

Each leaf of a pattern comes from one item of its source.  So whatever holds of the leaves of
every item holds of all leaves of a pattern, and this is kept while groups are opened and
closed around them.
-/

namespace Respell

namespace Source

/-- The leaves that an item of a pattern may have, with their bounds. -/
inductive Written : Leaf → Reps → Prop
  | byte (b : UInt8) (reps : Reps) : Written (.byte b) reps
  | literal {text : Bytes} (h : 2 ≤ text.length) : Written (.literal text text) .once
  | wildcard (reps : Reps) : Written (.set .full) reps
  | set (negated : Bool) (items : List SetItem) (reps : Reps) :
      Written (.set (.ofItems negated items)) reps
  | memberOf (id : ClassId) (reps : Reps) : Written (.memberOf id) reps

open Node

/-! ### Items -/

/-- A text without a quantifier, unless it has one byte. -/
theorem written_ofText {text : Bytes} (h : text ≠ []) {reps : Reps}
    (hreps : 2 ≤ text.length → reps = .once) :
  EachLeaf Written [(ofText text).withReps reps]
  := by
  match text with
  | [] => contradiction
  | [b] => exact eachLeaf_leaf (.byte b reps)
  | b :: c :: text =>
      have hlength : 2 ≤ (b :: c :: text).length := Nat.le_add_left 2 text.length
      rw [hreps hlength]
      exact eachLeaf_leaf (.literal hlength)

/-- Where no quantifier is in front the bounds are once. -/
theorem quantifier_of_not_starts {s : Bytes} (h : startsQuantifier s = false) (total : Nat) :
  quantifier total s = ⟨.once, s, malformedCount total s⟩
  := by
  rw [startsQuantifier, Option.isSome_eq_false_iff, Option.isNone_iff_eq_none] at h
  rw [quantifier, h]

theorem ofText_withReps_once (text : Bytes) :
  (ofText text).withReps .once = ofText text
  := by
  match text with
  | [] => rfl
  | [b] => rfl
  | b :: c :: text => rfl

theorem written_textNodes (total : Nat) (inGroup : Bool) (b : UInt8) (rest : Bytes) :
  EachLeaf Written (textNodes total inGroup b rest).value
  := by
  have hrun : (text total inGroup b rest).value ≠ [] := List.cons_ne_nil _ _
  simp only [textNodes]
  generalize text total inGroup b rest = run at hrun ⊢
  have hlength := List.length_pos_iff.mpr hrun
  split
  · next h =>
    rw [Bool.and_eq_true, decide_eq_true_eq] at h
    apply EachLeaf.cons
    · rw [← ofText_withReps_once]
      apply written_ofText _ fun _ => rfl
      intro hnil
      have hdrop := congrArg List.length hnil
      rw [List.length_dropLast, List.length_nil] at hdrop
      omega
    · have hdrop : (run.value.drop (run.value.length - 1)).length = 1 := by
        rw [List.length_drop]
        omega
      apply written_ofText
      · apply List.length_pos_iff.mp
        omega
      · omega
  · next h =>
    rw [Bool.and_eq_true, decide_eq_true_eq] at h
    apply written_ofText hrun
    intro hlong
    have hnot : startsQuantifier run.rest = false := by
      rw [← Bool.not_eq_true]
      exact fun hstarts => h ⟨hlong, hstarts⟩
    rw [quantifier_of_not_starts hnot]

/-- The nodes that an item consists of, if it does, have leaves that may be written. -/
def Item.Leaves : Item → Prop
  | .nodes ns => EachLeaf Written ns
  | _ => True

theorem leaves_item (total : Nat) (inGroup : Bool) (b : UInt8) (rest : Bytes) :
  (item total inGroup b rest).value.Leaves
  := by
  unfold item
  split
  · unfold branchEnd
    dsimp only
    split
    · trivial
    · split
      · trivial
      · trivial
  split
  · trivial
  split
  · trivial
  split
  · exact eachLeaf_leaf (.set _ _ _)
  split
  · exact eachLeaf_leaf (.wildcard _)
  · apply written_textNodes

/-! ### Readers -/

/-- All leaves that a reader has met may be written. -/
structure Reader.Leaves (r : Reader) : Prop where
  chain : EachLeaf Written r.chain
  before : ∀ g ∈ r.opened, EachLeaf Written g.before
  branches : ∀ g ∈ r.opened, ∀ b ∈ g.branches, EachLeaf Written b.nodes

namespace Reader

variable {r : Reader}

theorem leaves_start (lexicon : Lexicon) :
  (start lexicon).Leaves
  where
  chain := eachLeaf_nil
  before := List.forall_mem_nil _
  branches := List.forall_mem_nil _

theorem Leaves.warn (h : r.Leaves) (warnings : List Warning) :
  (r.warn warnings).Leaves
  := ⟨h.chain, h.before, h.branches⟩

theorem Leaves.append (h : r.Leaves) {nodes : List Node} (hnodes : EachLeaf Written nodes) :
  (r.append nodes).Leaves
  := ⟨h.chain.append hnodes, h.before, h.branches⟩

theorem Leaves.openGroup (h : r.Leaves) (pos : Nat) :
  (r.openGroup pos).Leaves
  where
  chain := eachLeaf_nil
  before := List.forall_mem_cons.mpr ⟨h.chain, h.before⟩
  branches := List.forall_mem_cons.mpr ⟨List.forall_mem_nil _, h.branches⟩

theorem Leaves.endBranch (h : r.Leaves) (replacement : Option Bytes) :
  (r.endBranch replacement).Leaves
  := by
  rw [Reader.endBranch]
  split
  · apply h
  · next g outer hopened =>
    have hbefore := h.before
    have hbranches := h.branches
    rw [hopened] at hbefore hbranches
    obtain ⟨hbefore, hbefores⟩ := List.forall_mem_cons.mp hbefore
    obtain ⟨hbranch, hbranches⟩ := List.forall_mem_cons.mp hbranches
    constructor
    · apply eachLeaf_nil
    · exact List.forall_mem_cons.mpr ⟨hbefore, hbefores⟩
    · apply List.forall_mem_cons.mpr ⟨_, hbranches⟩
      intro b hb
      rcases List.mem_append.mp hb with hb | hb
      · apply hbranch b hb
      · rw [List.mem_singleton.mp hb]
        apply h.chain

theorem Leaves.closeGroup (h : r.Leaves) (reps : Reps) :
  (r.closeGroup reps).Leaves
  := by
  rw [Reader.closeGroup]
  split
  · apply h
  · next g outer hopened =>
    have hbefore := h.before
    have hbranches := h.branches
    rw [hopened] at hbefore hbranches
    obtain ⟨hbefore, hbefores⟩ := List.forall_mem_cons.mp hbefore
    obtain ⟨hbranch, hbranches⟩ := List.forall_mem_cons.mp hbranches
    exact ⟨hbefore.append (eachLeaf_group hbranch), hbefores, hbranches⟩

theorem Leaves.abandonGroup (h : r.Leaves) :
  r.abandonGroup.Leaves
  := by
  rw [Reader.abandonGroup]
  split
  · apply h
  · apply (h.closeGroup _).warn

theorem Leaves.refer (h : r.Leaves) (ref : Reference) (reps : Reps) :
  (r.refer ref reps).Leaves
  := ⟨h.chain.append (eachLeaf_leaf (.memberOf _ _)), h.before, h.branches⟩

/-- After an item whose leaves may be written so may those that were met. -/
theorem Leaves.take (h : r.Leaves) (pos : Nat) {item : Item} (hitem : item.Leaves) :
  (r.take pos item).Leaves
  := by
  cases item with
  | groupOpen => apply h.openGroup
  | branchEnd replacement => apply h.endBranch
  | groupClose replacement reps => apply (h.endBranch _).closeGroup
  | cutOff replacement => apply (h.endBranch _).abandonGroup
  | reference ref reps => apply h.refer
  | nodes nodes => apply h.append hitem

theorem Leaves.finish (h : r.Leaves) :
  r.finish.Leaves
  := by
  rw [Reader.finish]
  generalize r.opened = opened
  induction opened generalizing r with
  | nil => apply h
  | cons g opened ih => apply ih (h.endBranch none).abandonGroup

theorem Leaves.read (h : r.Leaves) (total : Nat) (s : Bytes) :
  (r.read total s).Leaves
  := by
  fun_induction Reader.read total r s with
  | case1 r => apply h.finish
  | case2 r b rest scan ih =>
      apply ih
      apply (h.warn _).take
      apply leaves_item

end Reader

end Source

/-- All leaves of a pattern that was read may be written. -/
theorem Reading.leaves_ofSource (source : Bytes) (lexicon : Lexicon) :
  Node.EachLeaf Source.Written (Reading.ofSource source lexicon).pattern.nodes
  := ((Source.Reader.leaves_start lexicon).read _ _).chain

end Respell
