import Mathlib.Data.List.Forall2
import Respell.Proofs.Pattern.Node
import Respell.Proofs.Source.Reader
import Respell.Proofs.Source.Rest

/-!
# Class references and their ids

The references in a source are the same whatever classes there are, and each of them is written
there behind its opening mark.  For each reference the reader puts one id into the pattern, so the
ids in the pattern that is read are, from left to right, those of the names in the source.
-/

namespace Respell

/-! ### The ids in a chain -/

namespace Node

/-- The id of the class that the node is a member of. -/
def classId? : Node → Option ClassId
  | leaf (.memberOf id) _ => some id
  | _ => none

/-- The ids of the classes that a chain refers to, from left to right. -/
def classIds (nodes : List Node) : List ClassId := (withinChain nodes).filterMap classId?

/-- The ids of the classes that some branches refer to, from left to right. -/
def classIdsOfBranches (branches : List (Branch Node)) : List ClassId :=
  (withinBranches branches).filterMap classId?

theorem classIds_append (nodes nodes' : List Node) :
  classIds (nodes ++ nodes') = classIds nodes ++ classIds nodes'
  := by
  rw [classIds, withinChain_append, List.filterMap_append]
  rfl

theorem classIdsOfBranches_concat (branches : List (Branch Node)) (b : Branch Node) :
  classIdsOfBranches (branches ++ [b]) = classIdsOfBranches branches ++ classIds b.nodes
  := by
  rw [classIdsOfBranches, withinBranches_concat, List.filterMap_append]
  rfl

theorem classIds_leaf (content : Leaf) (reps : Reps) :
  classIds [leaf content reps] = (leaf content reps).classId?.toList
  := by
  rw [classIds, withinChain, withinChain, within, List.append_nil, List.filterMap_cons]
  cases (leaf content reps).classId? with
  | none => rfl
  | some id => rfl

theorem classIds_group (number : Nat) (branches : List (Branch Node)) (reps : Reps) :
  classIds [group number branches reps] = classIdsOfBranches branches
  := by
  rw [classIds, withinChain, withinChain, within, List.append_nil, List.filterMap_cons]
  rfl

/-- A text refers to no class. -/
theorem classIds_ofText (text : Bytes) (reps : Reps) :
  classIds [ofText text] = [] ∧ classIds [(ofText text).withReps reps] = []
  := by
  match text with
  | [] => exact ⟨rfl, rfl⟩
  | [b] => exact ⟨rfl, rfl⟩
  | b :: c :: text => exact ⟨rfl, rfl⟩

end Node

namespace Source

open Node

variable {total : Nat} {inGroup : Bool} {b : UInt8} {rest : Bytes}

/-! ### Items -/

/-- A reference begins with its opening mark. -/
theorem reference_of_item {ref : Reference} {reps : Reps}
    (h : (item total inGroup b rest).value = .reference ref reps) :
  b = Mark.classOpen ∧
    ref = (reference total (position total (Mark.classOpen :: rest)) rest).value
  := by
  rcases item_value_cases rest total inGroup b with h' | ⟨-, h'⟩ | ⟨rfl, _, h'⟩ | ⟨_, _, h'⟩ | h'
  · rw [h] at h'
    cases h'
  · cases h.symm.trans h'
  · exact ⟨rfl, (Item.reference.inj (h.symm.trans h')).1⟩
  · cases h.symm.trans h'
  · cases h.symm.trans h'

/-- The name of a reference is what stands in front of the byte that ends it. -/
theorem name_reference (total pos : Nat) (s : Bytes) :
  (reference total pos s).value.name = s.takeWhile (!Mark.endsName ·)
  := by
  have hname : (nameAndMembers total s).value.name = s.takeWhile (!Mark.endsName ·) := by
    rw [nameAndMembers]
    dsimp only
    split
    · rfl
    · rfl
  rw [reference]
  split
  · exact hname
  · exact hname

theorem classIds_textNodes (total : Nat) (inGroup : Bool) (b : UInt8) (rest : Bytes) :
  classIds (textNodes total inGroup b rest).value = []
  := by
  rw [textNodes]
  dsimp only
  split
  · rw [← List.singleton_append, classIds_append, (classIds_ofText _ .once).1,
      (classIds_ofText _ _).2, List.nil_append]
  · apply (classIds_ofText _ _).2

/-- Items that are no references refer to no class. -/
theorem classIds_item {nodes : List Node} (h : (item total inGroup b rest).value = .nodes nodes) :
  classIds nodes = []
  := by
  rcases item_value_cases rest total inGroup b with h' | ⟨-, h'⟩ | ⟨-, _, h'⟩ | ⟨_, _, h'⟩ | h'
  · rw [h] at h'
    cases h'
  · cases h.symm.trans h'
  · cases h.symm.trans h'
  · rw [Item.nodes.inj (h.symm.trans h')]
    rfl
  · rw [Item.nodes.inj (h.symm.trans h')]
    apply classIds_textNodes

/-! ### Where references come from -/

namespace Reader

/-- Which references there are depends on the groups around them, and on nothing else that was
read. -/
theorem referencesIn_eq_of_opened (total : Nat) (r : Reader) (s : Bytes) :
  ∀ r' : Reader, r.opened.length = r'.opened.length → r.referencesIn total s = r'.referencesIn total s
  := by
  fun_induction referencesIn total r s with
  | case1 r =>
      intro r' _
      rw [referencesIn]
  | case2 r b rest scan ih =>
      intro r' h
      have hin : r'.inGroup = r.inGroup := by
        have hempty : r'.opened.isEmpty = r.opened.isEmpty := by
          rw [Bool.eq_iff_iff, List.isEmpty_iff_length_eq_zero, List.isEmpty_iff_length_eq_zero, h]
        rw [inGroup, inGroup, hempty]
      rw [referencesIn, hin]
      apply congrArg (scan.value.reference?.toList ++ ·)
      apply ih
      rw [length_opened_take, length_opened_take]
      exact congrArg (Item.depthBehind · _) h

/-- Each reference is written in the source, behind its opening mark. -/
theorem exists_of_mem_referencesIn {source : Bytes} {r : Reader} {s : Bytes} (hs : s <:+ source)
    {ref : Reference} (h : ref ∈ r.referencesIn source.length s) :
  ∃ rest, Mark.classOpen :: rest <:+ source ∧
    ref = (reference source.length (position source.length (Mark.classOpen :: rest)) rest).value
  := by
  fun_induction referencesIn source.length r s with
  | case1 => cases h
  | case2 r b rest scan ih =>
      obtain h | h := List.mem_append.mp h
      · cases hvalue : scan.value with
        | reference ref' reps =>
            obtain ⟨rfl, href⟩ := reference_of_item hvalue
            rw [hvalue] at h
            obtain rfl := List.mem_singleton.mp h
            exact ⟨rest, hs, href⟩
        | _ =>
            rw [hvalue] at h
            cases h
      · apply ih _ h
        apply (suffix_item source.length r.inGroup b rest).trans
        apply (List.suffix_cons b rest).trans hs

end Reader

theorem exists_of_mem_referencesIn {source : Bytes} {ref : Reference} (h : ref ∈ referencesIn source) :
  ∃ rest, Mark.classOpen :: rest <:+ source ∧
    ref = (reference source.length (position source.length (Mark.classOpen :: rest)) rest).value
  := Reader.exists_of_mem_referencesIn (List.suffix_refl source) h

/-! ### The ids that a reader puts into a chain -/

/-- The ids in the chains around the one that is being read, and in the groups that are open. -/
def classIdsAround : List OpenGroup → List ClassId
  | [] => []
  | g :: outer =>
    classIdsAround outer ++ (Node.classIds g.before ++ classIdsOfBranches g.branches)

namespace Reader

/-- The ids that a reader has met, from left to right. -/
def classIds (r : Reader) : List ClassId := classIdsAround r.opened ++ Node.classIds r.chain

theorem classIds_openGroup (r : Reader) (pos : Nat) :
  (r.openGroup pos).classIds = r.classIds
  := by
  change classIdsAround r.opened ++ (Node.classIds r.chain ++ []) ++ [] = _
  rw [List.append_nil, List.append_nil]
  rfl

theorem classIds_endBranch (r : Reader) (replacement : Option Bytes) :
  (r.endBranch replacement).classIds = r.classIds
  := by
  cases hg : r.opened with
  | nil => rw [r.endBranch_of_nil hg]
  | cons g outer =>
      rw [r.endBranch_of_opened hg, classIds, classIds, hg]
      change classIdsAround outer ++ (_ ++ classIdsOfBranches (g.branches ++ [_])) ++ [] = _
      rw [classIdsOfBranches_concat, List.append_nil, classIdsAround]
      simp only [List.append_assoc]

/-- The end of a branch and of its group. -/
theorem classIds_closeGroup (r : Reader) (replacement : Option Bytes) (reps : Reps) :
  ((r.endBranch replacement).closeGroup reps).classIds = r.classIds
  := by
  cases hg : r.opened with
  | nil => rw [r.endBranch_of_nil hg, r.closeGroup_of_nil hg]
  | cons g outer =>
      rw [← r.classIds_endBranch replacement, r.endBranch_of_opened hg]
      change classIdsAround outer ++ Node.classIds (g.before ++ [.group g.number _ reps]) =
        classIdsAround outer ++ (Node.classIds g.before ++ _) ++ []
      rw [Node.classIds_append, classIds_group, List.append_nil]

theorem classIds_abandonGroup (r : Reader) (replacement : Option Bytes) :
  (r.endBranch replacement).abandonGroup.classIds = r.classIds
  := by
  cases hg : r.opened with
  | nil => rw [r.endBranch_of_nil hg, r.abandonGroup_of_nil hg]
  | cons g outer =>
      rw [r.abandonGroup_of_opened hg]
      exact r.classIds_closeGroup replacement .once

/-- An item adds an id if it is a reference, the one of the name that is referred to. -/
theorem classIds_take (r : Reader) (pos : Nat) {i : Item}
    (hnodes : ∀ nodes, i = .nodes nodes → Node.classIds nodes = []) :
  (r.take pos i).classIds =
    r.classIds ++ i.reference?.toList.map fun ref => r.lexicon.idOf ref.name
  := by
  cases i with
  | groupOpen => exact (r.classIds_openGroup pos).trans (List.append_nil _).symm
  | branchEnd replacement =>
      exact (r.classIds_endBranch replacement).trans (List.append_nil _).symm
  | groupClose replacement reps =>
      exact (r.classIds_closeGroup replacement reps).trans (List.append_nil _).symm
  | cutOff replacement =>
      exact (r.classIds_abandonGroup replacement).trans (List.append_nil _).symm
  | reference ref reps =>
      change _ ++ Node.classIds (r.chain ++ [.leaf (.memberOf (r.lexicon.idOf ref.name)) reps]) = _
      rw [Node.classIds_append, classIds_leaf, ← List.append_assoc]
      rfl
  | nodes nodes =>
      change _ ++ Node.classIds (r.chain ++ nodes) = _
      rw [Node.classIds_append, hnodes nodes rfl, List.append_nil]
      exact (List.append_nil _).symm

theorem classIds_finish (r : Reader) :
  r.finish.classIds = Node.classIds r.finish.chain ∧ r.finish.classIds = r.classIds
  := by
  generalize hg : r.opened = opened
  induction opened generalizing r with
  | nil =>
      rw [r.finish_of_nil hg, classIds, hg]
      exact ⟨rfl, rfl⟩
  | cons g outer ih =>
      obtain ⟨hopened, hfinish⟩ := finish_of_opened hg
      rw [hfinish, ← r.classIds_abandonGroup none]
      exact ih _ hopened

/-- The ids that are in the pattern in the end are those that were met before, and behind them
those of the names that are referred to in the rest of the source. -/
theorem classIds_read (total : Nat) (r : Reader) (s : Bytes) :
  (r.read total s).classIds = Node.classIds (r.read total s).chain ∧
    (r.read total s).classIds.map some = r.classIds.map some ++
      (r.referencesIn total s).map fun ref => (r.read total s).lexicon.idOf? ref.name
  := by
  fun_induction read total r s with
  | case1 r =>
      obtain ⟨hchain, hids⟩ := r.classIds_finish
      use hchain
      rw [hids, referencesIn]
      exact (List.append_nil _).symm
  | case2 r b rest scan ih =>
      obtain ⟨hchain, hids⟩ := ih
      use hchain
      have htake := (r.warn scan.warnings).classIds_take (position total (b :: rest))
        (i := scan.value) fun nodes h => classIds_item h
      have hread := lexicon_read total
        ((r.warn scan.warnings).take (position total (b :: rest)) scan.value) scan.rest
      rw [referencesIn, hids, htake, List.map_append, List.map_append, ← List.append_assoc]
      apply congrArg (· ++ _)
      apply congrArg (r.classIds.map some ++ ·)
      rw [List.map_map]
      apply List.map_congr_left
      intro ref href
      -- What follows only puts names behind the one that is referred to here.
      have htaken : ((r.warn scan.warnings).take (position total (b :: rest)) scan.value).lexicon =
          r.lexicon.declare ref := by
        have hone : scan.value.reference?.toList = [ref] := by
          rw [Option.mem_toList.mp href, Option.toList_some]
        rw [lexicon_take, hone]
        rfl
      rw [htaken] at hread
      apply Eq.symm
      apply Lexicon.idOf?_of_more _ (r.lexicon.idOf?_intern ref.name)
      rw [hread]
      apply (r.lexicon.names_prefix_declare ref).trans
      apply Lexicon.names_prefix_foldl_declare

end Reader

end Source

/-! ### Readings -/

namespace Reading

/-- Reading a source refers to some classes one after the other. -/
theorem lexicon_ofSource (source : Bytes) (lexicon : Lexicon) :
  (ofSource source lexicon).lexicon = (Source.referencesIn source).foldl Lexicon.declare lexicon
  := by
  have hreferences := Source.Reader.referencesIn_eq_of_opened source.length (.start lexicon) source
    (.start .empty) rfl
  rw [ofSource]
  dsimp only
  rw [Source.Reader.lexicon_read, hreferences]
  rfl

/-- The ids in the pattern that is read are, from left to right, those of the names that the
source refers to. -/
theorem forall₂_classIds_ofSource (source : Bytes) (lexicon : Lexicon) :
  let r := ofSource source lexicon
  List.Forall₂ (fun id ref => some id = r.lexicon.idOf? ref.name)
    (Node.classIds r.pattern.nodes) (Source.referencesIn source)
  := by
  intro r
  have hreferences := Source.Reader.referencesIn_eq_of_opened source.length (.start lexicon) source
    (.start .empty) rfl
  obtain ⟨hchain, hids⟩ := (Source.Reader.start lexicon).classIds_read source.length source
  rw [hchain, hreferences] at hids
  have heq : List.Forall₂ Eq ((Node.classIds r.pattern.nodes).map some)
      ((Source.referencesIn source).map fun ref => r.lexicon.idOf? ref.name) := by
    rw [List.forall₂_eq_eq_eq]
    exact hids
  exact List.forall₂_map_left_iff.mp (List.forall₂_map_right_iff.mp heq)

end Reading

end Respell
