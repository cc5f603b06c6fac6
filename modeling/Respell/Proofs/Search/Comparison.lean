import Mathlib.Data.List.Forall2
import Mathlib.Tactic.Common
import Respell.Proofs.Pattern.Node
import Respell.Proofs.Search.Outcome
import Respell.Search.Run

/-!
# Comparing what searches bring back

Two searches go along paths that are related, and what they bring back is compared: the paths
that were found in one way, and the endings of the repetitions under way in another.  The two
ways have nothing to do with the relation of the paths that are still followed, except within a
repetition, where the next round starts at an ending.

When paths that compare leave equally much unread, every choice comes out the same on both
sides.  So searches agree, in every comparison, as soon as their continuations do.
-/

namespace Respell

open Outcome

/-- Related options are both nothing, or hold related values. -/
theorem eq_none_or_eq_some_of_rel {α β : Type} {S : α → β → Prop} {a : Option α}
    {b : Option β} (h : Option.Rel S a b) :
  a = none ∧ b = none ∨ ∃ x y, a = some x ∧ b = some y ∧ S x y
  := by
  cases h with
  | none =>
      left
      exact ⟨rfl, rfl⟩
  | some h =>
      right
      exact ⟨_, _, rfl, rfl, h⟩

theorem isNone_eq_of_rel {α β : Type} {S : α → β → Prop} {a : Option α} {b : Option β}
    (h : Option.Rel S a b) :
  a.isNone = b.isNone
  := by
  cases h with
  | none => rfl
  | some _ => rfl

/-- The images of the same elements are related one by one when each element has related images. -/
theorem forall₂_map_map {α β γ : Type} {S : β → γ → Prop} {f : α → β} {g : α → γ} {as : List α}
    (h : ∀ a ∈ as, S (f a) (g a)) :
  List.Forall₂ S (as.map f) (as.map g)
  := by
  apply List.forall₂_map_left_iff.mpr
  apply List.forall₂_map_right_iff.mpr
  apply List.forall₂_same.mpr h

/-- What is preferred of two possible results is preferred of two related ones. -/
theorem rel_closest {α β : Type} {left : α → Nat} {left' : β → Nat} {S : α → β → Prop}
    (hS : ∀ x y, S x y → left x = left' y) {a b : Option α} {a' b' : Option β}
    (ha : Option.Rel S a a') (hb : Option.Rel S b b') :
  Option.Rel S (closest left a b) (closest left' a' b')
  := by
  cases ha with
  | none => apply hb
  | some hx =>
      cases hb with
      | none => exact Option.Rel.some hx
      | some hy =>
          rw [closest, closest, hS _ _ hx, hS _ _ hy]
          split
          · exact Option.Rel.some hy
          · exact Option.Rel.some hx

/-- Endings with related paths through which equally much is left. -/
def Ending.Alike (R : Path → Path → Prop) (d e : Ending) : Prop :=
  R d.path e.path ∧ d.left = e.left

namespace Outcome

/-! ### Endings level by level -/

theorem joinEndings_nil (ds : List (Option Ending)) :
  joinEndings ds [] = ds
  := by
  cases ds with
  | nil => rfl
  | cons d ds => rfl

theorem headD_joinEndings (ds es : List (Option Ending)) :
  (joinEndings ds es).headD none = closest Ending.left (ds.headD none) (es.headD none)
  := by
  cases ds with
  | nil => rfl
  | cons d ds =>
      cases es with
      | nil => exact (closest_none_right d).symm
      | cons e es => rfl

theorem tail_joinEndings (ds es : List (Option Ending)) :
  (joinEndings ds es).tail = joinEndings ds.tail es.tail
  := by
  cases ds with
  | nil => rfl
  | cons d ds =>
      cases es with
      | nil => exact (joinEndings_nil ds).symm
      | cons e es => rfl

/-! ### Comparisons -/

/-- A way to compare the paths that were found, which then leave equally much unread, and a way
to compare lists of endings that is kept when lists are joined. -/
structure Comparison where
  found : Path → Path → Prop
  endings : List (Option Ending) → List (Option Ending) → Prop
  left_eq : ∀ p q, found p q → p.left = q.left
  nil : endings [] []
  join : ∀ {ds es ds' es'}, endings ds es → endings ds' es' →
    endings (joinEndings ds ds') (joinEndings es es')

namespace Comparison

/-- The outcomes compare: a path was found on both sides, and these compare, or on none. -/
structure Holds (c : Comparison) (a b : Outcome) : Prop where
  found : Option.Rel c.found a.found b.found
  endings : c.endings a.endings b.endings

/-- The comparison of the paths that were found, whatever the endings are. -/
def ofFound (S : Path → Path → Prop) (hleft : ∀ p q, S p q → p.left = q.left) : Comparison where
  found := S
  endings _ _ := True
  left_eq := hleft
  nil := trivial
  join _ _ := trivial

/-- The same comparison as it is seen from inside one more repetition, whose own endings are
related as paths that are still followed. -/
def inside (R : Path → Path → Prop) (c : Comparison) : Comparison where
  found := c.found
  endings ds es :=
    Option.Rel (Ending.Alike R) (ds.headD none) (es.headD none) ∧ c.endings ds.tail es.tail
  left_eq := c.left_eq
  nil := ⟨Option.Rel.none, c.nil⟩
  join := by
    rintro ds es ds' es' ⟨hhead, htail⟩ ⟨hhead', htail'⟩
    rw [headD_joinEndings, headD_joinEndings, tail_joinEndings, tail_joinEndings]
    exact ⟨rel_closest (fun d e h => h.2) hhead hhead', c.join htail htail'⟩

variable {c : Comparison} {a b a' b' : Outcome} {R : Path → Path → Prop}

theorem holds_fail (c : Comparison) :
  c.Holds fail fail
  := ⟨Option.Rel.none, c.nil⟩

theorem Holds.orElse (ha : c.Holds a a') (hb : c.Holds b b') :
  c.Holds (a.orElse b) (a'.orElse b')
  := ⟨rel_closest c.left_eq ha.found hb.found, c.join ha.endings hb.endings⟩

theorem Holds.orRather (ha : c.Holds a a') (hb : c.Holds b b') :
  c.Holds (a.orRather b) (a'.orRather b')
  := ⟨rel_closest c.left_eq hb.found ha.found, c.join ha.endings hb.endings⟩

theorem Holds.outside (h : (c.inside R).Holds a b) :
  c.Holds a.outside b.outside
  := ⟨h.found, h.endings.2⟩

theorem Holds.ending (h : (c.inside R).Holds a b) :
  Option.Rel (Ending.Alike R) a.ending? b.ending?
  := h.endings.1

section Enough

variable {enough enough' : Path → Bool} (henough : ∀ p q, c.found p q → enough p = enough' q)
include henough

theorem Holds.satisfies_eq (h : c.Holds a b) :
  a.satisfies enough = b.satisfies enough'
  := by
  rw [satisfies, satisfies]
  obtain ⟨ha, hb⟩ | ⟨p, q, ha, hb, hpq⟩ := eq_none_or_eq_some_of_rel h.found
  · rw [ha, hb]
    rfl
  · rw [ha, hb]
    apply henough p q hpq

theorem holds_explore {α β : Type} {search : α → Outcome} {search' : β → Outcome}
    {as : List α} {bs : List β}
    (h : List.Forall₂ (fun x y => c.Holds (search x) (search' y)) as bs)
    {best best' : Outcome} (hbest : c.Holds best best') :
  c.Holds (explore enough search as best) (explore enough' search' bs best')
  := by
  induction h generalizing best best' with
  | nil => apply hbest
  | @cons x y as bs hxy _ ih =>
      have hnext := hbest.orElse hxy
      rw [explore, explore, hnext.satisfies_eq henough]
      split
      · apply hnext
      · apply ih hnext

end Enough

end Comparison

end Outcome

/-! ### Steps that agree -/

/-- From related paths the continuations bring back outcomes that compare. -/
def Continuation.Agree (c : Comparison) (R : Path → Path → Prop) (k k' : Continuation) : Prop :=
  ∀ p q, R p q → c.Holds (k p) (k' q)

/-- The steps make agreeing continuations of agreeing continuations. -/
def Step.Agree (c : Comparison) (R : Path → Path → Prop) (step step' : Step) : Prop :=
  ∀ k k', Continuation.Agree c R k k' → Continuation.Agree c R (step k) (step' k')

section Rounds

variable {c : Comparison} {R : Path → Path → Prop} (hleft : ∀ p q, R p q → p.left = q.left)
  {k k' : Continuation} (hk : Continuation.Agree c R k k')
include hleft hk

theorem agree_endRound (mayStop : Bool) :
  Continuation.Agree (c.inside R) R (endRound mayStop k) (endRound mayStop k')
  := by
  intro p q hpq
  have ho : c.Holds (if mayStop then k p else .fail) (if mayStop then k' q else .fail) := by
    split
    · apply hk p q hpq
    · apply c.holds_fail
  refine ⟨ho.found, Option.Rel.some ⟨hpq, ?_⟩, ho.endings⟩
  dsimp only
  obtain ⟨ha, hb⟩ | ⟨p', q', ha, hb, h⟩ := eq_none_or_eq_some_of_rel ho.found
  · rw [ha, hb]
    apply hleft p q hpq
  · rw [ha, hb]
    apply c.left_eq p' q' h

variable {enough enough' : Path → Bool} (henough : ∀ p q, c.found p q → enough p = enough' q)
  {steps steps' : List Step} (hs : List.Forall₂ (Step.Agree (c.inside R) R) steps steps')
include henough hs

theorem agree_round (mayStop : Bool) :
  Continuation.Agree (c.inside R) R (round enough steps mayStop k) (round enough' steps' mayStop k')
  := by
  intro p q hpq
  apply Comparison.holds_explore (c := c.inside R) henough _ (Comparison.holds_fail _)
  apply hs.imp
  intro step step' hstep
  apply hstep _ _ (agree_endRound hleft hk mayStop) p q hpq

theorem agree_rounds {reps : Reps} {count : Nat} {best best' : Outcome} {p q : Path}
    (hbest : c.Holds best best') (hpq : R p q) :
  c.Holds (rounds enough steps reps k count best p) (rounds enough' steps' reps k' count best' q)
  := by
  induction hn : p.left using Nat.strongRecOn generalizing count best best' p q with
  | ind n ih =>
      have hround := agree_round hleft hk henough hs (decide (reps.least ≤ count + 1)) p q hpq
      have hnext := hbest.orRather hround.outside
      rw [rounds, rounds]
      split
      · dsimp only
        rw [hnext.satisfies_eq henough]
        split
        · apply hnext
        · obtain ⟨hd, he⟩ | ⟨d, e, hd, he, hde⟩ := eq_none_or_eq_some_of_rel hround.ending
          · rw [hd, he]
            apply hnext
          · rw [hd, he]
            dsimp only
            rw [← hleft _ _ hde.1, ← hleft _ _ hpq]
            split
            · next hlt => apply ih d.path.left (hn ▸ hlt) hnext hde.1 rfl
            · split
              · apply hnext
              · apply hnext.orRather (hk _ _ hde.1)
      · apply hbest

omit hk in
theorem Step.Agree.repeated (reps : Reps) :
  Step.Agree c R (Respell.repeated enough steps reps) (Respell.repeated enough' steps' reps)
  := by
  intro k k' hk p q hpq
  apply agree_rounds hleft hk henough hs _ hpq
  split
  · apply hk p q hpq
  · apply c.holds_fail

end Rounds

/-! ### Leaves and chains that agree -/

theorem Path.forall₂_iterates {R : Path → Path → Prop} {step? step?' : Path → Option Path}
    (h : ∀ p q, R p q → Option.Rel R (step? p) (step?' q)) (n : Nat) {p q : Path}
    (hpq : R p q) :
  List.Forall₂ R (iterates step? n p) (iterates step?' n q)
  := by
  induction n generalizing p q with
  | zero => exact .cons hpq .nil
  | succ n ih =>
      rw [iterates, iterates]
      obtain ⟨hp, hq⟩ | ⟨p', q', hp, hq, hnext⟩ := eq_none_or_eq_some_of_rel (h p q hpq)
      · rw [hp, hq]
        exact .cons hpq .nil
      · rw [hp, hq]
        exact .cons hpq (ih hnext)

namespace Search

variable {c : Comparison} {R : Path → Path → Prop} {s s' : Search}

theorem agree_downFromMost (hleft : ∀ p q, R p q → p.left = q.left)
    (henough : ∀ p q, c.found p q → s.enough p = s'.enough q)
    {step? step?' : Path → Option Path} (h : ∀ p q, R p q → Option.Rel R (step? p) (step?' q))
    (reps : Reps) :
  Step.Agree c R (s.downFromMost step? reps) (s'.downFromMost step?' reps)
  := by
  intro k k' hk p q hpq
  apply Comparison.holds_explore henough _ c.holds_fail
  rw [hleft p q hpq]
  apply List.Forall₂.imp (R := R) hk
  apply List.forall₂_reverse_iff.mpr
  apply List.forall₂_drop
  apply Path.forall₂_iterates h _ hpq

/-- The end of the word is seen on both sides. -/
theorem agree_wordEnd (hempty : ∀ p q, R p q → p.rest.isEmpty = q.rest.isEmpty) (reps : Reps) :
  Step.Agree c R (s.leaf reps .wordEnd) (s'.leaf reps .wordEnd)
  := by
  intro k k' hk p q hpq
  simp only [leaf]
  rw [hempty p q hpq]
  split
  · apply hk p q hpq
  · apply c.holds_fail

/-- All that is left is taken on both sides. -/
theorem agree_remainder
    (hall : ∀ p q, R p q → R (p.advance p.left p.rest) (q.advance q.left q.rest))
    (reps : Reps) :
  Step.Agree c R (s.leaf reps .remainder) (s'.leaf reps .remainder)
  := by
  intro k k' hk p q hpq
  have hk' := hk _ _ (hall p q hpq)
  simp only [leaf]
  rw [isNone_eq_of_rel hk'.found]
  split
  · apply hk'.orElse (hk p q hpq)
  · apply hk'

/-- A chain of one node is this node. -/
theorem chain_singleton (s : Search) (n : Node) :
  s.chain [n] = s.node n
  := rfl

/-- A chain in two parts is the first part followed by the second one. -/
theorem chain_append (s : Search) (nodes nodes' : List Node) :
  s.chain (nodes ++ nodes') = fun k => s.chain nodes (s.chain nodes' k)
  := by
  induction nodes with
  | nil => rfl
  | cons n ns ih => rw [List.cons_append, chain, ih, chain]

/-- Chains of nodes that agree one by one agree. -/
theorem agree_chain_of_nodes {nodes : List Node} {f : Node → Node}
    (h : ∀ n ∈ nodes, Step.Agree c R (s.node n) (s'.node (f n))) :
  Step.Agree c R (s.chain nodes) (s'.chain (nodes.map f))
  := by
  induction nodes with
  | nil =>
      intro k k' hk
      apply hk
  | cons n ns ih =>
      intro k k' hk
      apply h n List.mem_cons_self
      apply ih (fun m hm => h m (List.mem_cons_of_mem n hm)) k k' hk

end Search

/-! ### The same search along related paths -/

/-- A relation between paths at the same place of the word that is kept when both move on in the
same way. -/
structure Path.Kept (R : Path → Path → Prop) : Prop where
  rest_eq : ∀ {p q}, R p q → p.rest = q.rest
  advance : ∀ {p q}, R p q → ∀ n text, R (p.advance n text) (q.advance n text)
  leaveBranch : ∀ {p q p' q'}, R p q → R p' q' → ∀ number replacement,
    R (p'.leaveBranch p.given number replacement) (q'.leaveBranch q.given number replacement)

theorem Path.kept_eq :
  Path.Kept Eq
  where
  rest_eq h := congrArg Path.rest h
  advance h _ _ := by rw [h]
  leaveBranch h h' _ _ := by rw [h, h']

namespace Path.Kept

variable {R : Path → Path → Prop} (hR : Path.Kept R)
include hR

theorem left_eq (p q : Path) (h : R p q) :
  p.left = q.left
  := congrArg List.length (hR.rest_eq h)

theorem rel_copyByte? (accepts : UInt8 → Bool) (p q : Path) (h : R p q) :
  Option.Rel R (p.copyByte? accepts) (q.copyByte? accepts)
  := by
  have hrest := hR.rest_eq h
  have hadvance := hR.advance h
  obtain ⟨rest, given, captures⟩ := p
  obtain ⟨rest', given', captures'⟩ := q
  obtain rfl : rest = rest' := hrest
  cases rest with
  | nil => exact Option.Rel.none
  | cons b rest =>
      simp only [copyByte?]
      split
      · exact Option.Rel.some (hadvance 1 [b])
      · exact Option.Rel.none

theorem rel_replaceText? (text replacement : Bytes) (p q : Path) (h : R p q) :
  Option.Rel R (p.replaceText? text replacement) (q.replaceText? text replacement)
  := by
  rw [replaceText?, replaceText?, hR.rest_eq h]
  split
  · exact Option.Rel.some (hR.advance h _ _)
  · exact Option.Rel.none

end Path.Kept

namespace Search

variable {R : Path → Path → Prop} (hR : Path.Kept R) {s : Search}
include hR

theorem agree_memberStep (c : Comparison) (casing : Casing) (m : Member) :
  Step.Agree c R (memberStep casing m) (memberStep casing m)
  := by
  intro k k' hk p q hpq
  rw [memberStep, memberStep, hR.rest_eq hpq]
  split
  · apply hk _ _ (hR.advance hpq _ _)
  · apply c.holds_fail

variable (henough : ∀ p, s.enough p = true ↔ p.left = 0)
include henough

omit hR in
theorem enough_eq_of_found (c : Comparison) (p q : Path) (h : c.found p q) :
  s.enough p = s.enough q
  := by
  rw [Bool.eq_iff_iff, henough, henough, c.left_eq p q h]

theorem agree_leaf (c : Comparison) (reps : Reps) (content : Leaf) :
  Step.Agree c R (s.leaf reps content) (s.leaf reps content)
  := by
  have hfound := enough_eq_of_found henough c
  cases content with
  | byte b => exact agree_downFromMost hR.left_eq hfound (hR.rel_copyByte? _) reps
  | set members => exact agree_downFromMost hR.left_eq hfound (hR.rel_copyByte? _) reps
  | literal text replacement =>
      simp only [leaf, replaceText]
      split
      · intro k k' hk p q hpq
        apply hk _ _ (hR.advance hpq _ _)
      · exact agree_downFromMost hR.left_eq hfound (hR.rel_replaceText? text replacement) reps
  | memberOf id =>
      apply Step.Agree.repeated hR.left_eq hfound
      rw [classSteps]
      split
      · exact .nil
      · next d _ =>
        apply forall₂_map_map
        intro m _
        apply agree_memberStep hR
  | wordEnd => exact agree_wordEnd (fun p q h => congrArg List.isEmpty (hR.rest_eq h)) reps
  | remainder =>
      apply agree_remainder
      intro p q hpq
      rw [hR.left_eq p q hpq, hR.rest_eq hpq]
      apply hR.advance hpq

omit henough in
/-- Branches agree when their chains do. -/
theorem agree_branchStep {c : Comparison} {nodes nodes' : List Node}
    (h : Step.Agree c R (s.chain nodes) (s.chain nodes')) (number : Nat)
    (replacement : Option Bytes) :
  Step.Agree c R (s.branchStep number ⟨nodes, replacement⟩)
    (s.branchStep number ⟨nodes', replacement⟩)
  := by
  intro k k' hk p q hpq
  rw [branchStep_eq, branchStep_eq]
  apply h _ _ _ p q hpq
  intro p' q' hpq'
  apply hk _ _ (hR.leaveBranch hpq hpq' number replacement)

/-- A node agrees with itself in every comparison, along paths that are related in a way that is
kept. -/
theorem agree_node (n : Node) :
  ∀ c, Step.Agree c R (s.node n) (s.node n)
  := by
  induction n using Node.ind with
  | leaf content reps => exact fun c => agree_leaf hR henough c reps content
  | group number branches reps ih =>
      intro c
      apply Step.Agree.repeated hR.left_eq (enough_eq_of_found henough c)
      rw [branchSteps_eq_map]
      apply forall₂_map_map
      intro b hb
      have hchain := agree_chain_of_nodes (f := id) fun n hn => ih b hb n hn (c.inside R)
      rw [List.map_id] at hchain
      apply agree_branchStep hR hchain

/-- A chain agrees with itself in every comparison, along paths that are related in a way that is
kept. -/
theorem agree_chain (c : Comparison) (nodes : List Node) :
  Step.Agree c R (s.chain nodes) (s.chain nodes)
  := by
  have h := agree_chain_of_nodes (f := id) fun n (_ : n ∈ nodes) => agree_node hR henough n c
  rwa [List.map_id] at h

/-- Chains agree when they are the same apart from parts that agree. -/
theorem agree_chain_between (c : Comparison) (before after : List Node) {nodes nodes' : List Node}
    (h : Step.Agree c R (s.chain nodes) (s.chain nodes')) :
  Step.Agree c R (s.chain (before ++ nodes ++ after)) (s.chain (before ++ nodes' ++ after))
  := by
  intro k k' hk
  rw [chain_append, chain_append, chain_append, chain_append]
  apply agree_chain hR henough c before
  apply h
  apply agree_chain hR henough c after k k' hk

/-- Groups agree when they are the same apart from the nodes of one branch, and these agree inside
one more repetition. -/
theorem agree_group_between (c : Comparison) (number : Nat) (reps : Reps)
    (branches branches' : List (Branch Node)) (replacement : Option Bytes)
    {nodes nodes' : List Node}
    (h : Step.Agree (c.inside R) R (s.chain nodes) (s.chain nodes')) :
  Step.Agree c R (s.node (.group number (branches ++ ⟨nodes, replacement⟩ :: branches') reps))
    (s.node (.group number (branches ++ ⟨nodes', replacement⟩ :: branches') reps))
  := by
  have hsame : ∀ bs : List (Branch Node), List.Forall₂ (Step.Agree (c.inside R) R)
      (bs.map (s.branchStep number)) (bs.map (s.branchStep number)) := by
    intro bs
    apply forall₂_map_map
    intro b _
    apply agree_branchStep hR (agree_chain hR henough (c.inside R) b.nodes)
  rw [node, node, branchSteps_eq_map, branchSteps_eq_map, List.map_append, List.map_append]
  apply Step.Agree.repeated hR.left_eq (enough_eq_of_found henough c)
  apply List.rel_append (hsame branches)
  apply List.Forall₂.cons _ (hsame branches')
  apply agree_branchStep hR h

end Search

end Respell
