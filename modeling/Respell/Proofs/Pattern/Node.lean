import Respell.Pattern.Node

/-!
# Nodes within nodes

Induction on a node, where what is shown of a group may be used of all nodes of its
branches, and the nodes that occur in a chain at any depth.
-/

namespace Respell

namespace Node

theorem sizeOf_lt_of_mem_branch {m : Node} {b : Branch Node} (h : m ∈ b.nodes) :
  sizeOf m < sizeOf b
  := by
  obtain ⟨nodes, replacement⟩ := b
  have : sizeOf m < sizeOf nodes := List.sizeOf_lt_of_mem h
  simp only [Branch.mk.sizeOf_spec]
  omega

theorem sizeOf_lt_of_mem_group {m : Node} {b : Branch Node} {number : Nat}
    {branches : List (Branch Node)} {reps : Reps} (hb : b ∈ branches) (hm : m ∈ b.nodes) :
  sizeOf m < sizeOf (group number branches reps)
  := by
  have := List.sizeOf_lt_of_mem hb
  have := sizeOf_lt_of_mem_branch hm
  simp only [group.sizeOf_spec]
  omega

/-- A property of all leaves which a group has when all nodes of its branches have it is a
property of all nodes. -/
theorem ind {P : Node → Prop} (leaf : ∀ content reps, P (leaf content reps))
    (group : ∀ number branches reps, (∀ b ∈ branches, ∀ m ∈ b.nodes, P m) →
      P (group number branches reps)) :
    ∀ n, P n
  | .leaf content reps => leaf content reps
  | .group number branches reps => by
      apply group
      intro b hb m hm
      have hlt : sizeOf m < sizeOf (Node.group number branches reps) :=
        sizeOf_lt_of_mem_group hb hm
      apply ind leaf group m
termination_by n => sizeOf n
decreasing_by exact hlt

/-- The node occurs in a chain, at any depth. -/
inductive Occurs (n : Node) : List Node → Prop
  | here {nodes : List Node} (h : n ∈ nodes) : Occurs n nodes
  | inside {nodes : List Node} {number : Nat} {branches : List (Branch Node)} {reps : Reps}
      {b : Branch Node} (hg : group number branches reps ∈ nodes) (hb : b ∈ branches)
      (h : Occurs n b.nodes) : Occurs n nodes

/-- The node is a group or a class that may be repeated more than once. -/
def Repeats : Node → Prop
  | leaf (.memberOf _) reps => ∀ m ∈ reps.most, 1 < m
  | leaf _ _ => False
  | group _ _ reps => ∀ m ∈ reps.most, 1 < m

/-- Nothing but a leaf itself occurs in it. -/
theorem Occurs.eq_leaf {n : Node} {content : Leaf} {reps : Reps}
    (h : Occurs n [leaf content reps]) :
  n = leaf content reps
  := by
  cases h with
  | here h => apply List.mem_singleton.mp h
  | inside hg => cases List.mem_singleton.mp hg

/-- What occurs in a node occurs in every chain with that node. -/
theorem Occurs.ofMem {n m : Node} {nodes : List Node} (hm : m ∈ nodes) (h : Occurs n [m]) :
  Occurs n nodes
  := by
  cases h with
  | here h =>
      obtain rfl := List.mem_singleton.mp h
      apply Occurs.here hm
  | inside hg hb h =>
      obtain rfl := List.mem_singleton.mp hg
      apply Occurs.inside hm hb h

/-- What occurs in a node of a branch occurs in the group with that branch. -/
theorem Occurs.ofBranch {n m : Node} {number : Nat} {branches : List (Branch Node)}
    {reps : Reps} {b : Branch Node} (hb : b ∈ branches) (hm : m ∈ b.nodes)
    (h : Occurs n [m]) :
  Occurs n [group number branches reps]
  := by
  apply Occurs.inside (List.mem_singleton.mpr rfl) hb (Occurs.ofMem hm h)

/-! ### The nodes of a chain -/

mutual

/-- The node and those within it, each one before those within it. -/
def within : Node → List Node
  | leaf content reps => [leaf content reps]
  | group number branches reps => group number branches reps :: withinBranches branches

/-- The nodes of a chain at any depth, from left to right. -/
def withinChain : List Node → List Node
  | [] => []
  | n :: ns => n.within ++ withinChain ns

/-- The nodes of a branch at any depth. -/
def withinBranch : Branch Node → List Node
  | ⟨nodes, _⟩ => withinChain nodes

/-- The nodes of a list of branches at any depth, from left to right. -/
def withinBranches : List (Branch Node) → List Node
  | [] => []
  | b :: bs => withinBranch b ++ withinBranches bs

end

theorem mem_within_self (n : Node) :
  n ∈ n.within
  := by
  cases n with
  | leaf content reps => apply List.mem_cons_self
  | group number branches reps => apply List.mem_cons_self

theorem mem_withinChain_iff {m : Node} {nodes : List Node} :
  m ∈ withinChain nodes ↔ ∃ n ∈ nodes, m ∈ n.within
  := by
  induction nodes with
  | nil => simp [withinChain]
  | cons n ns ih => simp [withinChain, ih]

theorem mem_withinBranches_iff {m : Node} {branches : List (Branch Node)} :
  m ∈ withinBranches branches ↔ ∃ b ∈ branches, m ∈ withinChain b.nodes
  := by
  induction branches with
  | nil => simp [withinBranches]
  | cons b bs ih =>
      have hb : withinBranch b = withinChain b.nodes := by
        cases b
        rw [withinBranch]
      simp [withinBranches, ih, hb]

theorem withinChain_append (nodes nodes' : List Node) :
  withinChain (nodes ++ nodes') = withinChain nodes ++ withinChain nodes'
  := by
  induction nodes with
  | nil => rfl
  | cons n nodes ih =>
      rw [List.cons_append, withinChain, withinChain, ih, List.append_assoc]

theorem withinBranches_concat (branches : List (Branch Node)) (b : Branch Node) :
  withinBranches (branches ++ [b]) = withinBranches branches ++ withinChain b.nodes
  := by
  induction branches with
  | nil =>
      obtain ⟨nodes, replacement⟩ := b
      exact List.append_nil _
  | cons c branches ih =>
      rw [List.cons_append, withinBranches, withinBranches, ih, List.append_assoc]

theorem occurs_of_mem_within {m n : Node} (h : m ∈ n.within) :
  m.Occurs [n]
  := by
  induction n using ind with
  | leaf content reps =>
      rw [within] at h
      apply Occurs.here h
  | group number branches reps ih =>
      rw [within] at h
      obtain rfl | h := List.mem_cons.mp h
      · apply Occurs.here List.mem_cons_self
      · obtain ⟨b, hb, h⟩ := mem_withinBranches_iff.mp h
        obtain ⟨n, hn, h⟩ := mem_withinChain_iff.mp h
        apply (ih b hb n hn h).ofBranch hb hn

theorem occurs_iff {m : Node} {nodes : List Node} :
  m.Occurs nodes ↔ m ∈ withinChain nodes
  := by
  constructor
  · intro h
    induction h with
    | here h => apply mem_withinChain_iff.mpr ⟨m, h, m.mem_within_self⟩
    | inside hg hb _ ih =>
        apply mem_withinChain_iff.mpr
        refine ⟨_, hg, ?_⟩
        rw [within]
        apply List.mem_cons_of_mem
        apply mem_withinBranches_iff.mpr ⟨_, hb, ih⟩
  · intro h
    obtain ⟨n, hn, h⟩ := mem_withinChain_iff.mp h
    apply (occurs_of_mem_within h).ofMem hn

instance {P : Node → Prop} [DecidablePred P] (nodes : List Node) :
    Decidable (∀ n : Node, n.Occurs nodes → P n) :=
  decidable_of_iff (∀ n ∈ withinChain nodes, P n) (by simp only [occurs_iff])

/-! ### The numbers of groups -/

theorem mem_groupNumbersOfChain_iff {number : Nat} {nodes : List Node} :
  number ∈ groupNumbersOfChain nodes ↔ ∃ n ∈ nodes, number ∈ n.groupNumbers
  := by
  induction nodes with
  | nil => simp [groupNumbersOfChain]
  | cons n ns ih => simp [groupNumbersOfChain, ih]

theorem mem_groupNumbersOfBranches_iff {number : Nat} {branches : List (Branch Node)} :
  number ∈ groupNumbersOfBranches branches ↔
    ∃ b ∈ branches, number ∈ groupNumbersOfChain b.nodes
  := by
  induction branches with
  | nil => simp [groupNumbersOfBranches]
  | cons b bs ih =>
      have hb : groupNumbersOfBranch b = groupNumbersOfChain b.nodes := by
        cases b
        rw [groupNumbersOfBranch]
      simp [groupNumbersOfBranches, ih, hb]

/-- The number of a group that occurs in a chain is one of the numbers of the chain. -/
theorem mem_groupNumbersOfChain_of_occurs {number : Nat} {branches : List (Branch Node)}
    {reps : Reps} {nodes : List Node} (h : (group number branches reps).Occurs nodes) :
  number ∈ groupNumbersOfChain nodes
  := by
  induction h with
  | here h => exact mem_groupNumbersOfChain_iff.mpr ⟨_, h, List.mem_cons_self⟩
  | inside hg hb _ ih =>
      apply mem_groupNumbersOfChain_iff.mpr
      refine ⟨_, hg, ?_⟩
      rw [groupNumbers]
      apply List.mem_cons_of_mem
      exact mem_groupNumbersOfBranches_iff.mpr ⟨_, hb, ih⟩

/-! ### Other leaves and replacements -/

mutual

/-- The node with other leaves and other replacements of branches, at every depth. -/
def alter (f : Leaf → Leaf) (g : Option Bytes → Option Bytes) : Node → Node
  | leaf content reps => leaf (f content) reps
  | group number branches reps => group number (alterBranches f g branches) reps

/-- The chain with other leaves and other replacements of branches. -/
def alterChain (f : Leaf → Leaf) (g : Option Bytes → Option Bytes) : List Node → List Node
  | [] => []
  | n :: ns => n.alter f g :: alterChain f g ns

/-- The branch with other leaves and other replacements, its own one included. -/
def alterBranch (f : Leaf → Leaf) (g : Option Bytes → Option Bytes) :
    Branch Node → Branch Node
  | ⟨nodes, replacement⟩ => ⟨alterChain f g nodes, g replacement⟩

/-- The branches with other leaves and other replacements. -/
def alterBranches (f : Leaf → Leaf) (g : Option Bytes → Option Bytes) :
    List (Branch Node) → List (Branch Node)
  | [] => []
  | b :: bs => alterBranch f g b :: alterBranches f g bs

end

section Alter

variable (f : Leaf → Leaf) (g : Option Bytes → Option Bytes)

theorem alterChain_eq_map (nodes : List Node) :
  alterChain f g nodes = nodes.map (alter f g)
  := by
  induction nodes with
  | nil => rw [alterChain, List.map_nil]
  | cons n ns ih => rw [alterChain, List.map_cons, ih]

theorem alterBranch_eq (b : Branch Node) :
  alterBranch f g b = ⟨alterChain f g b.nodes, g b.replacement⟩
  := by
  cases b
  rw [alterBranch]

theorem alterBranches_eq_map (branches : List (Branch Node)) :
  alterBranches f g branches = branches.map (alterBranch f g)
  := by
  induction branches with
  | nil => rw [alterBranches, List.map_nil]
  | cons b bs ih => rw [alterBranches, List.map_cons, ih]

end Alter

/-- A node whose leaves and replacements all stay the same is the same node. -/
theorem alter_id (n : Node) :
  n.alter id id = n
  := by
  induction n using ind with
  | leaf content reps => rw [alter, id]
  | group number branches reps ih =>
      have hbranch : ∀ b ∈ branches, alterBranch id id b = id b := by
        intro b hb
        rw [alterBranch_eq, alterChain_eq_map, List.map_congr_left (ih b hb), List.map_id']
        rfl
      rw [alter, alterBranches_eq_map, List.map_congr_left hbranch, List.map_id]

theorem alterChain_id (nodes : List Node) :
  alterChain id id nodes = nodes
  := by
  rw [alterChain_eq_map, List.map_congr_left (fun n _ => alter_id n), List.map_id']

/-! ### The leaves of a chain -/

/-- The leaves of a chain, at any depth, satisfy a condition with their bounds. -/
def EachLeaf (P : Leaf → Reps → Prop) (nodes : List Node) : Prop :=
  ∀ content reps, (leaf content reps).Occurs nodes → P content reps

section EachLeaf

variable {P : Leaf → Reps → Prop}

theorem eachLeaf_nil :
  EachLeaf P []
  := by
  intro content reps h
  cases h with
  | here h => cases h
  | inside hg => cases hg

theorem eachLeaf_leaf {content : Leaf} {reps : Reps} (h : P content reps) :
  EachLeaf P [leaf content reps]
  := by
  intro content' reps' h'
  cases h'.eq_leaf
  apply h

theorem eachLeaf_group {number : Nat} {branches : List (Branch Node)} {reps : Reps}
    (h : ∀ b ∈ branches, EachLeaf P b.nodes) :
  EachLeaf P [group number branches reps]
  := by
  intro content reps h'
  cases h' with
  | here h' => cases List.mem_singleton.mp h'
  | inside hg hb h' =>
      cases List.mem_singleton.mp hg
      apply h _ hb content reps h'

theorem EachLeaf.append {nodes nodes' : List Node} (h : EachLeaf P nodes)
    (h' : EachLeaf P nodes') :
  EachLeaf P (nodes ++ nodes')
  := by
  intro content reps ho
  cases ho with
  | here ho =>
      rcases List.mem_append.mp ho with ho | ho
      · apply h content reps (Occurs.here ho)
      · apply h' content reps (Occurs.here ho)
  | inside hg hb ho =>
      rcases List.mem_append.mp hg with hg | hg
      · apply h content reps (Occurs.inside hg hb ho)
      · apply h' content reps (Occurs.inside hg hb ho)

theorem EachLeaf.cons {n : Node} {nodes : List Node} (h : EachLeaf P [n])
    (h' : EachLeaf P nodes) :
  EachLeaf P (n :: nodes)
  := h.append h'

end EachLeaf

end Node

end Respell
