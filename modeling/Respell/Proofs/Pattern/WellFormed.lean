import Mathlib.Data.List.Chain
import Mathlib.Data.List.Range
import Mathlib.Tactic.Common
import Respell.Pattern
import Respell.Proofs.ByteSet
import Respell.Proofs.Lexicon

/-!
# Well-formed patterns

A pattern that was read is more regular than a pattern has to be.  Texts are literals only from
two bytes on, and are not split into several of them; every class is there, every group has a
branch, and the groups are numbered from 1 on in the order in which they begin.
-/

namespace Respell

/-- A leaf, with its bounds, is well formed among the classes of a lexicon.  There is no such leaf
for the end of the word and for the remainder of it. -/
inductive Leaf.WellFormed (l : Lexicon) : Leaf → Reps → Prop
  | byte (b : UInt8) (reps : Reps) : WellFormed l (.byte b) reps
  | set {s : ByteSet} (h : s.CaseBlind) (reps : Reps) : WellFormed l (.set s) reps
  | literal {text : Bytes} (h : 2 ≤ text.length) : WellFormed l (.literal text text) .once
  | memberOf {id : ClassId} {c : NamedClass} (h : l.get? id = some c) (reps : Reps) :
      WellFormed l (.memberOf id) reps

namespace Node

/-- The node is a literal. -/
def isLiteral : Node → Bool
  | leaf (.literal _ _) _ => true
  | _ => false

/-- No literal of a chain stands right behind another one. -/
def Apart (nodes : List Node) : Prop :=
  nodes.IsChain fun m n => m.isLiteral = true → n.isLiteral = false

/-- A node is well formed, at every depth, among the classes of a lexicon. -/
inductive WellFormed (l : Lexicon) : Node → Prop
  | leaf {content : Leaf} {reps : Reps} (hreps : ∀ m ∈ reps.most, reps.least ≤ m)
      (h : content.WellFormed l reps) : WellFormed l (leaf content reps)
  | group {number : Nat} {branches : List (Branch Node)} {reps : Reps}
      (hreps : ∀ m ∈ reps.most, reps.least ≤ m) (hsome : branches ≠ [])
      (hapart : ∀ b ∈ branches, Apart b.nodes)
      (hnodes : ∀ b ∈ branches, ∀ n ∈ b.nodes, WellFormed l n) :
      WellFormed l (group number branches reps)

/-- A chain is well formed: so are its nodes, and its literals stand apart. -/
structure ChainWellFormed (l : Lexicon) (nodes : List Node) : Prop where
  apart : Apart nodes
  each : ∀ n ∈ nodes, n.WellFormed l

end Node

/-- A pattern is well formed: so is its chain, and its groups are numbered in the order in which
they begin, up to the number of groups. -/
structure Pattern.WellFormed (l : Lexicon) (p : Pattern) : Prop where
  chain : Node.ChainWellFormed l p.nodes
  numbers : Node.groupNumbersOfChain p.nodes = List.range' 1 p.groups

/-! ### More classes -/

section Mono

variable {l l' : Lexicon} (hl : l.names <+: l'.names)

include hl

theorem Leaf.WellFormed.mono {content : Leaf} {reps : Reps} (h : content.WellFormed l reps) :
  content.WellFormed l' reps
  := by
  cases h with
  | byte b => apply byte
  | set h => apply set h
  | literal h => apply literal h
  | memberOf h =>
      obtain ⟨hlt, -⟩ := List.getElem?_eq_some_iff.mp h
      have hsize := hl.length_le
      rw [Lexicon.names, Lexicon.names, List.length_map, List.length_map] at hsize
      apply memberOf (List.getElem?_eq_getElem (Nat.lt_of_lt_of_le hlt hsize))

theorem Node.WellFormed.mono {n : Node} (h : n.WellFormed l) :
  n.WellFormed l'
  := by
  induction h with
  | leaf hreps h => exact leaf hreps (h.mono hl)
  | group hreps hsome hapart _ ih => exact group hreps hsome hapart ih

theorem Node.ChainWellFormed.mono {nodes : List Node} (h : ChainWellFormed l nodes) :
  ChainWellFormed l' nodes
  := ⟨h.apart, fun n hn => (h.each n hn).mono hl⟩

end Mono

/-! ### Chains -/

namespace Node

variable {l : Lexicon}

theorem chainWellFormed_nil :
  ChainWellFormed l []
  := ⟨.nil, List.forall_mem_nil _⟩

/-- Two chains form one if the second does not go on with the literal that ends the first. -/
theorem ChainWellFormed.append {nodes nodes' : List Node} (h : ChainWellFormed l nodes)
    (h' : ChainWellFormed l nodes')
    (hbetween : ∀ m ∈ nodes.getLast?, ∀ n ∈ nodes'.head?,
      m.isLiteral = true → n.isLiteral = false) :
  ChainWellFormed l (nodes ++ nodes')
  := by
  constructor
  · exact List.isChain_append.mpr ⟨h.apart, h'.apart, hbetween⟩
  · intro n hn
    rcases List.mem_append.mp hn with hn | hn
    · apply h.each n hn
    · apply h'.each n hn

/-- A node that is no literal goes with any chain. -/
theorem ChainWellFormed.concat {nodes : List Node} (h : ChainWellFormed l nodes) {n : Node}
    (hn : n.WellFormed l) (hliteral : n.isLiteral = false) :
  ChainWellFormed l (nodes ++ [n])
  := by
  apply h.append
  · exact ⟨.singleton n, List.forall_mem_singleton.mpr hn⟩
  · intro m _ n' hn' _
    rw [← Option.some.inj hn', hliteral]

theorem groupNumbersOfChain_append (nodes nodes' : List Node) :
  groupNumbersOfChain (nodes ++ nodes') =
    groupNumbersOfChain nodes ++ groupNumbersOfChain nodes'
  := by
  induction nodes with
  | nil => rfl
  | cons n nodes ih =>
      rw [List.cons_append, groupNumbersOfChain, groupNumbersOfChain, ih, List.append_assoc]

theorem groupNumbersOfBranches_concat (branches : List (Branch Node)) (b : Branch Node) :
  groupNumbersOfBranches (branches ++ [b]) =
    groupNumbersOfBranches branches ++ groupNumbersOfChain b.nodes
  := by
  induction branches with
  | nil =>
      obtain ⟨nodes, replacement⟩ := b
      exact List.append_nil _
  | cons c branches ih =>
      rw [List.cons_append, groupNumbersOfBranches, groupNumbersOfBranches, ih, List.append_assoc]

end Node

/-- The number of groups of a well-formed pattern is the highest number that one of them bears. -/
theorem Pattern.WellFormed.ofNodes_eq {l : Lexicon} {p : Pattern} (h : p.WellFormed l) :
  ofNodes p.nodes = p
  := by
  have hmax : ∀ n, (List.range' 1 n).foldl max 0 = n := by
    intro n
    induction n with
    | zero => rfl
    | succ n ih =>
        rw [List.range'_1_concat, List.foldl_append, ih]
        change max n (1 + n) = n + 1
        omega
  rw [ofNodes, h.numbers, hmax]

end Respell
