import Respell.ByteSet
import Respell.Lexicon
import Respell.Pattern.Reps

/-!
# Nodes of a pattern

A pattern is a chain of nodes, read from left to right.  A node is a leaf or a numbered
group of alternative branches, and each node has bounds of repetition.
-/

namespace Respell

/-- What a node without branches stands for. -/
inductive Leaf where
  /-- A byte, in either case if it is a letter. -/
  | byte (b : UInt8)
  /-- A member of a set. -/
  | set (s : ByteSet)
  /-- A text in any case, which is replaced. -/
  | literal (text replacement : Bytes)
  /-- A member of a class, which is replaced. -/
  | memberOf (id : ClassId)
  /-- The end of the word. -/
  | wordEnd
  /-- Whatever is left of the word. -/
  | remainder
  deriving DecidableEq

/-- One of the alternatives of a group.  It is replaced by the given text, or else by
what its own nodes give. -/
structure Branch (α : Type) where
  nodes : List α
  replacement : Option Bytes
  deriving DecidableEq

/-- An element of a pattern with its bounds of repetition. -/
inductive Node where
  | leaf (content : Leaf) (reps : Reps)
  | group (number : Nat) (branches : List (Branch Node)) (reps : Reps)

namespace Node

/-- The bounds of repetition. -/
def reps : Node → Reps
  | leaf _ reps => reps
  | group _ _ reps => reps

/-- The same node with other bounds. -/
def withReps (reps : Reps) : Node → Node
  | leaf content _ => leaf content reps
  | group number branches _ => group number branches reps

/-- A text that is replaced by itself: a byte node if it has one byte, and a literal
otherwise. -/
def ofText : Bytes → Node
  | [b] => leaf (.byte b) .once
  | text => leaf (.literal text text) .once

/-! ### Equality of nodes is decidable -/

mutual

/-- Decides whether two nodes are equal. -/
def decEq : (m n : Node) → Decidable (m = n)
  | leaf l r, leaf l' r' =>
    decidable_of_iff (l = l' ∧ r = r') (by simp)
  | group k bs r, group k' bs' r' =>
    have := decEqBranches bs bs'
    decidable_of_iff (k = k' ∧ bs = bs' ∧ r = r') (by simp)
  | leaf _ _, group _ _ _ => isFalse (by simp)
  | group _ _ _, leaf _ _ => isFalse (by simp)

/-- Decides whether two chains are equal. -/
def decEqChain : (ms ns : List Node) → Decidable (ms = ns)
  | [], [] => isTrue rfl
  | m :: ms, n :: ns =>
    have := decEq m n
    have := decEqChain ms ns
    decidable_of_iff (m = n ∧ ms = ns) (by simp)
  | [], _ :: _ => isFalse (by simp)
  | _ :: _, [] => isFalse (by simp)

/-- Decides whether two branches are equal. -/
def decEqBranch : (b c : Branch Node) → Decidable (b = c)
  | ⟨ns, r⟩, ⟨ns', r'⟩ =>
    have := decEqChain ns ns'
    decidable_of_iff (ns = ns' ∧ r = r') (by simp)

/-- Decides whether two lists of branches are equal. -/
def decEqBranches : (bs cs : List (Branch Node)) → Decidable (bs = cs)
  | [], [] => isTrue rfl
  | b :: bs, c :: cs =>
    have := decEqBranch b c
    have := decEqBranches bs cs
    decidable_of_iff (b = c ∧ bs = cs) (by simp)
  | [], _ :: _ => isFalse (by simp)
  | _ :: _, [] => isFalse (by simp)

end

instance : DecidableEq Node := decEq

/-! ### The numbers of groups -/

mutual

/-- The numbers of the groups in a node, each group before those within it. -/
def groupNumbers : Node → List Nat
  | leaf _ _ => []
  | group number branches _ => number :: groupNumbersOfBranches branches

/-- The numbers of the groups in a chain, from left to right. -/
def groupNumbersOfChain : List Node → List Nat
  | [] => []
  | n :: ns => n.groupNumbers ++ groupNumbersOfChain ns

/-- The numbers of the groups in a branch. -/
def groupNumbersOfBranch : Branch Node → List Nat
  | ⟨nodes, _⟩ => groupNumbersOfChain nodes

/-- The numbers of the groups in a list of branches, from left to right. -/
def groupNumbersOfBranches : List (Branch Node) → List Nat
  | [] => []
  | b :: bs => groupNumbersOfBranch b ++ groupNumbersOfBranches bs

end

end Node

end Respell
