import Respell.Proofs.Search.Comparison

/-!
# Searches side by side

Two searches are compared by a relation between their paths.  When related paths leave
equally much unread and are equally good to stop at, every choice between paths comes out
the same on both sides, so that searches made of related steps bring back related outcomes:
both find nothing, or they find related paths, and the same holds of the endings of every
repetition under way.

This is the comparison in which the paths that were found, and those at which rounds end, are
related in the same way as the paths that are still followed.
-/

namespace Respell

open Outcome

/-! ### Related outcomes -/

namespace Outcome

/-- The paths that were found are related, and so are the endings at each level, or there is
none on both sides. -/
structure Alike (R : Path → Path → Prop) (a b : Outcome) : Prop where
  found : Option.Rel R a.found b.found
  endings : ∀ i, Option.Rel (Ending.Alike R) (a.endingAt? i) (b.endingAt? i)

variable {R : Path → Path → Prop}

theorem alike_fail :
  Alike R fail fail
  where
  found := Option.Rel.none
  endings _ := Option.Rel.none

theorem alike_done {p q : Path} (h : R p q) :
  Alike R (done p) (done q)
  where
  found := Option.Rel.some h
  endings _ := Option.Rel.none

variable (hleft : ∀ p q, R p q → p.left = q.left)

/-- To be alike is a comparison. -/
def alike : Comparison where
  found := R
  endings ds es := ∀ i : Nat, Option.Rel (Ending.Alike R) ds[i]?.join es[i]?.join
  left_eq := hleft
  nil _ := Option.Rel.none
  join := by
    intro ds es ds' es' h h' i
    rw [join_joinEndings, join_joinEndings]
    apply rel_closest (fun d e h => h.2) (h i) (h' i)

theorem alike_iff_holds {a b : Outcome} :
  Alike R a b ↔ (alike hleft).Holds a b
  := ⟨fun h => ⟨h.found, h.endings⟩, fun h => ⟨h.found, h.endings⟩⟩

/-- Outcomes that are alike are so at every level, also from inside one more repetition. -/
theorem inside_alike :
  (alike hleft).inside R = alike hleft
  := by
  have hlevels : ∀ ds es : List (Option Ending),
      (Option.Rel (Ending.Alike R) (ds.headD none) (es.headD none) ∧
        ∀ i : Nat, Option.Rel (Ending.Alike R) ds.tail[i]?.join es.tail[i]?.join) ↔
          ∀ i : Nat, Option.Rel (Ending.Alike R) ds[i]?.join es[i]?.join := by
    intro ds es
    have hhead : ∀ l : List (Option Ending), l.headD none = l[0]?.join := by
      intro l
      cases l with
      | nil => rfl
      | cons e l => rfl
    rw [hhead, hhead]
    simp only [List.getElem?_tail]
    constructor
    · rintro ⟨hzero, hsucc⟩ i
      cases i with
      | zero => exact hzero
      | succ i => exact hsucc i
    · exact fun h => ⟨h 0, fun i => h (i + 1)⟩
  simp only [Comparison.inside, alike, hlevels]

end Outcome

/-! ### Related steps -/

/-- From related paths the continuations bring back related outcomes. -/
def Continuation.Alike (R : Path → Path → Prop) (k k' : Continuation) : Prop :=
  ∀ p q, R p q → Outcome.Alike R (k p) (k' q)

/-- The steps make related continuations of related continuations. -/
def Step.Alike (R : Path → Path → Prop) (step step' : Step) : Prop :=
  ∀ k k', Continuation.Alike R k k' → Continuation.Alike R (step k) (step' k')

section Agree

variable {R : Path → Path → Prop} (hleft : ∀ p q, R p q → p.left = q.left)

/-- Related steps are those that agree in the comparison. -/
theorem Step.alike_iff_agree {step step' : Step} :
  Step.Alike R step step' ↔ Step.Agree (alike hleft) R step step'
  := by
  simp only [Step.Alike, Continuation.Alike, alike_iff_holds hleft]
  exact Iff.rfl

include hleft

theorem Step.Alike.repeated {enough enough' : Path → Bool}
    (henough : ∀ p q, R p q → enough p = enough' q) {steps steps' : List Step}
    (hs : List.Forall₂ (Step.Alike R) steps steps') (reps : Reps) :
  Step.Alike R (Respell.repeated enough steps reps) (Respell.repeated enough' steps' reps)
  := by
  apply (Step.alike_iff_agree hleft).mpr
  apply Step.Agree.repeated hleft henough
  rw [inside_alike]
  apply hs.imp
  intro step step' h
  apply (Step.alike_iff_agree hleft).mp h

end Agree

/-! ### Searches along chains -/

namespace Search

variable {R : Path → Path → Prop} (hleft : ∀ p q, R p q → p.left = q.left) {s s' : Search}
  (henough : ∀ p q, R p q → s.enough p = s'.enough q)
include hleft henough

theorem alike_downFromMost {step? step?' : Path → Option Path}
    (h : ∀ p q, R p q → Option.Rel R (step? p) (step?' q)) (reps : Reps) :
  Step.Alike R (s.downFromMost step? reps) (s'.downFromMost step?' reps)
  := (Step.alike_iff_agree hleft).mpr (agree_downFromMost hleft henough h reps)

omit henough in
/-- The end of the word is seen on both sides. -/
theorem alike_wordEnd (hempty : ∀ p q, R p q → p.rest.isEmpty = q.rest.isEmpty) (reps : Reps) :
  Step.Alike R (s.leaf reps .wordEnd) (s'.leaf reps .wordEnd)
  := (Step.alike_iff_agree hleft).mpr (agree_wordEnd hempty reps)

omit henough in
/-- All that is left is taken on both sides. -/
theorem alike_remainder
    (hall : ∀ p q, R p q → R (p.advance p.left p.rest) (q.advance q.left q.rest))
    (reps : Reps) :
  Step.Alike R (s.leaf reps .remainder) (s'.leaf reps .remainder)
  := (Step.alike_iff_agree hleft).mpr (agree_remainder hall reps)

omit henough in
/-- Chains of nodes that are pairwise related are related. -/
theorem alike_chain_of_nodes {nodes : List Node} {f : Node → Node}
    (h : ∀ n ∈ nodes, Step.Alike R (s.node n) (s'.node (f n))) :
  Step.Alike R (s.chain nodes) (s'.chain (nodes.map f))
  := by
  apply (Step.alike_iff_agree hleft).mpr
  apply agree_chain_of_nodes
  exact fun n hn => (Step.alike_iff_agree hleft).mp (h n hn)

/-! ### Searches along altered chains -/

section Alter

variable {f : Leaf → Leaf} {g : Option Bytes → Option Bytes}
  (hleave : ∀ p q p' q', R p q → R p' q' → ∀ number replacement,
    R (p'.leaveBranch p.given number replacement)
      (q'.leaveBranch q.given number (g replacement)))
include hleave

/-- A node is related to the same node with other leaves, to which its leaves are related, and
other replacements. -/
theorem alike_alter (n : Node)
    (hleaf : ∀ content reps, (Node.leaf content reps).Occurs [n] →
      Step.Alike R (s.leaf reps content) (s'.leaf reps (f content))) :
  Step.Alike R (s.node n) (s'.node (n.alter f g))
  := by
  induction n using Node.ind with
  | leaf content reps => apply hleaf _ _ (Node.Occurs.here List.mem_cons_self)
  | group number branches reps ih =>
      apply Step.Alike.repeated hleft henough
      rw [branchSteps_eq_map, branchSteps_eq_map, Node.alterBranches_eq_map, List.map_map]
      apply forall₂_map_map
      intro b hb k k' hk p q hpq
      rw [Function.comp_apply, branchStep_eq, branchStep_eq, Node.alterBranch_eq,
        Node.alterChain_eq_map]
      have hchain : Step.Alike R (s.chain b.nodes) (s'.chain (b.nodes.map (Node.alter f g))) := by
        apply alike_chain_of_nodes hleft
        intro n hn
        apply ih b hb n hn
        intro content reps h
        apply hleaf content reps (h.ofBranch hb hn)
      apply hchain _ _ _ p q hpq
      intro p' q' hpq'
      apply hk _ _ (hleave p q p' q' hpq hpq' number b.replacement)

/-- A chain is related to the same chain with other leaves, to which its leaves are related, and
other replacements. -/
theorem alike_alterChain {nodes : List Node}
    (hleaf : ∀ content reps, (Node.leaf content reps).Occurs nodes →
      Step.Alike R (s.leaf reps content) (s'.leaf reps (f content))) :
  Step.Alike R (s.chain nodes) (s'.chain (Node.alterChain f g nodes))
  := by
  rw [Node.alterChain_eq_map]
  apply alike_chain_of_nodes hleft
  intro n hn
  apply alike_alter hleft henough hleave
  intro content reps h
  apply hleaf content reps (Node.Occurs.ofMem hn h)

/-- Searches from related paths find related paths, or both find none. -/
theorem rel_found_of_alter {nodes : List Node}
    (hleaf : ∀ content reps, (Node.leaf content reps).Occurs nodes →
      Step.Alike R (s.leaf reps content) (s'.leaf reps (f content))) {p q : Path} (hpq : R p q) :
  Option.Rel R (s.chain nodes .done p).found (s'.chain (Node.alterChain f g nodes) .done q).found
  := by
  apply (alike_alterChain hleft henough hleave hleaf _ _ _ p q hpq).found
  intro p q hpq
  apply alike_done hpq

end Alter

/-- Searches along the same chain, of which every leaf is related to itself, find related paths
from related paths, or both find none. -/
theorem rel_found_of_leaves
    (hleave : ∀ p q p' q', R p q → R p' q' → ∀ number replacement,
      R (p'.leaveBranch p.given number replacement) (q'.leaveBranch q.given number replacement))
    {nodes : List Node}
    (hleaf : ∀ content reps, (Node.leaf content reps).Occurs nodes →
      Step.Alike R (s.leaf reps content) (s'.leaf reps content)) {p q : Path} (hpq : R p q) :
  Option.Rel R (s.chain nodes .done p).found (s'.chain nodes .done q).found
  := by
  have h := rel_found_of_alter (f := id) (g := id) hleft henough hleave hleaf hpq
  rwa [Node.alterChain_id] at h

end Search

end Respell
