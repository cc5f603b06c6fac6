import Mathlib.Data.List.Forall2
import Respell.Proofs.Search.Equal
import Respell.Proofs.Way

/-!
# Searches that stop nowhere

A thorough search tries every alternative, every number of repetitions and every round, also
when it has found a path through the whole word.  Like the other search it prefers a later
number of rounds to an earlier one with an equally good path.  But after each round the best path
by then, which may be one without rounds, is kept if it is good enough to stop at.

Where a search stops early it has found a path that is as good as the one that the thorough
search finds in the end, and otherwise the two bring back the same.  If the thorough search
keeps the same paths at which the other one stops, then both find the same path in any case.
-/

namespace Respell

open Outcome

/-! ### The thorough search -/

/-- What the first rounds and one more find together, after `count` of them were made.  Of
equally good paths the one of the last round is kept, unless it is not the first round and the
best path before it, which may be one without rounds, is to be kept. -/
def joinRound (keeps : Path → Bool) (count : Nat) (best o : Outcome) : Outcome :=
  if 0 < count ∧ best.satisfies keeps = true then best.orElse o else best.orRather o

/-- The path of the last round is kept if it is the first round, or if the best path before it is
not to be kept. -/
theorem joinRound_eq_orRather {keeps : Path → Bool} {count : Nat} {best : Outcome}
    (h : 0 < count → ¬ best.satisfies keeps = true) (o : Outcome) :
  joinRound keeps count best o = best.orRather o
  := if_neg fun hkept => h hkept.1 hkept.2

/-- All rounds after the first `count`, with the best outcome of those. -/
def allRounds (keeps : Path → Bool) (steps : List Step) (reps : Reps) (k : Continuation)
    (count : Nat) (best : Outcome) (p : Path) : Outcome :=
  if reps.allowsMore count then
    let mayStop : Bool := reps.least ≤ count + 1
    let o := round (fun _ => false) steps mayStop k p
    let best := joinRound keeps count best o.outside
    match o.ending? with
    | none => best
    | some e =>
      if e.path.left < p.left then allRounds keeps steps reps k (count + 1) best e.path
      else if mayStop then best
      else joinRound keeps (count + 1) best (k e.path)
  else best
  termination_by p.left

/-- As many rounds as the bounds allow, all of which are made. -/
def repeatedThroughout (keeps : Path → Bool) (steps : List Step) (reps : Reps) : Step :=
  fun k p => allRounds keeps steps reps k 0 (if reps.least = 0 then k p else .fail) p

namespace Search

/-- The search that is never satisfied. -/
def exhaustive (lexicon : Lexicon) : Search := ⟨lexicon, fun _ => false⟩

/-- The thorough step of a leaf. -/
def thoroughLeaf (s : Search) (reps : Reps) : Leaf → Step
  | .memberOf id => repeatedThroughout s.enough (s.classSteps id) reps
  | content => (exhaustive s.lexicon).leaf reps content

mutual

/-- The thorough step of a node. -/
def thoroughNode (s : Search) : Node → Step
  | .leaf content reps => s.thoroughLeaf reps content
  | .group number branches reps =>
    repeatedThroughout s.enough (s.thoroughBranchSteps number branches) reps

/-- The thorough step of a chain. -/
def thoroughChain (s : Search) : List Node → Step
  | [] => fun k => k
  | n :: ns => fun k => s.thoroughNode n (s.thoroughChain ns k)

/-- The thorough step of a branch. -/
def thoroughBranchStep (s : Search) (number : Nat) : Branch Node → Step
  | ⟨nodes, replacement⟩ => fun k p =>
    s.thoroughChain nodes (fun q => k (q.leaveBranch p.given number replacement)) p

/-- The thorough steps of the branches of a group. -/
def thoroughBranchSteps (s : Search) (number : Nat) : List (Branch Node) → List Step
  | [] => []
  | b :: bs => s.thoroughBranchStep number b :: s.thoroughBranchSteps number bs

end

theorem thoroughBranchStep_eq (s : Search) (number : Nat) (b : Branch Node) :
  s.thoroughBranchStep number b = fun k p =>
    s.thoroughChain b.nodes (fun q => k (q.leaveBranch p.given number b.replacement)) p
  := by
  cases b
  rw [thoroughBranchStep]

theorem thoroughBranchSteps_eq_map (s : Search) (number : Nat) (branches : List (Branch Node)) :
  s.thoroughBranchSteps number branches = branches.map (s.thoroughBranchStep number)
  := by
  induction branches with
  | nil => rw [thoroughBranchSteps, List.map_nil]
  | cons b bs ih => rw [thoroughBranchSteps, List.map_cons, ih]

/-- The path that the thorough search finds in the end. -/
def thoroughLongest? (s : Search) (nodes : List Node) (word : Bytes) : Option Path :=
  (s.thoroughChain nodes .done (.start word)).found

end Search

/-! ### Paths through the whole word -/

section Satisfies

variable {enough : Path → Bool} (henough : ∀ p, enough p = true ↔ p.left = 0) {a b : Outcome}
include henough

/-- No path is closer than one that is good enough. -/
theorem closest_of_enough {p : Path} (h : enough p = true) (b : Option Path) :
  closest Path.left (some p) b = some p
  := by
  rw [henough] at h
  cases b with
  | none => rfl
  | some q =>
      rw [closest, h]
      exact if_neg (Nat.not_lt_zero _)

/-- What two searches find is good enough if what one of them finds is. -/
theorem any_closest {a b : Option Path} :
  (closest Path.left a b).any enough = true ↔ a.any enough = true ∨ b.any enough = true
  := by
  cases a with
  | none => simp [closest]
  | some p =>
      by_cases hp : enough p = true
      · rw [closest_of_enough henough hp]
        simp [hp]
      · cases b with
        | none => simp [closest]
        | some q =>
            have hp' : ¬ p.left = 0 := fun h => hp ((henough p).mpr h)
            rw [closest]
            split
            · simp [hp]
            · next hlt =>
              have hq : ¬ enough q = true := by
                rw [henough]
                omega
              simp [hp, hq]

theorem satisfies_orElse :
  (a.orElse b).satisfies enough = true ↔
    a.satisfies enough = true ∨ b.satisfies enough = true
  := any_closest henough

theorem satisfies_orRather :
  (a.orRather b).satisfies enough = true ↔
    a.satisfies enough = true ∨ b.satisfies enough = true
  := (any_closest henough).trans or_comm

/-- A path that is good enough is kept when the search goes on. -/
theorem found_orElse_of_satisfies (h : a.satisfies enough = true) :
  (a.orElse b).found = a.found
  := by
  obtain ⟨p, hp, henoughp⟩ := (Option.any_eq_true _ _).mp h
  rw [orElse, hp]
  apply closest_of_enough henough henoughp

theorem found_explore_of_satisfies {α : Type} (search : α → Outcome) (as : List α)
    (h : a.satisfies enough = true) :
  (explore (fun _ => false) search as a).found = a.found
  := by
  induction as generalizing a with
  | nil => rfl
  | cons x as ih =>
      have hnever : ¬ (a.orElse (search x)).satisfies (fun _ => false) = true := by
        simp [satisfies]
      rw [explore, if_neg hnever, ih ((satisfies_orElse henough).mpr (.inl h)),
        found_orElse_of_satisfies henough h]

end Satisfies

/-! ### A search that stops and one that does not -/

/-- Two outcomes are the same, or what was found is good enough on both sides.  If the paths
that are good enough are also kept, the same path was found. -/
structure Outcome.CutShort (enough : Path → Bool) (Keeps : Prop) (a b : Outcome) : Prop where
  eq_or : a = b ∨ a.satisfies enough = true ∧ b.satisfies enough = true
  found : Keeps → a.found = b.found

namespace Outcome

variable {enough : Path → Bool} {Keeps : Prop} {a b a' b' : Outcome}

theorem CutShort.refl (a : Outcome) :
  CutShort enough Keeps a a
  := ⟨.inl rfl, fun _ => rfl⟩

theorem CutShort.satisfies_eq (h : CutShort enough Keeps a b) :
  a.satisfies enough = b.satisfies enough
  := by
  obtain rfl | ⟨ha, hb⟩ := h.eq_or
  · rfl
  · rw [ha, hb]

theorem CutShort.eq_of_not_satisfies (h : CutShort enough Keeps a b)
    (ha : ¬ a.satisfies enough = true) :
  a = b
  := h.eq_or.resolve_right fun hab => ha hab.1

/-- Going on from a path that is good enough is the same as stopping there, if what is found in
the end is good enough as well. -/
theorem CutShort.more (h : CutShort enough Keeps a b) (ha : a.satisfies enough = true)
    {c : Outcome} (hc : c.satisfies enough = true) (hfound : Keeps → c.found = b.found) :
  CutShort enough Keeps a c
  where
  eq_or := .inr ⟨ha, hc⟩
  found hkeeps := (h.found hkeeps).trans (hfound hkeeps).symm

theorem CutShort.outside (h : CutShort enough Keeps a b) :
  CutShort enough Keeps a.outside b.outside
  where
  eq_or := h.eq_or.imp_left (congrArg Outcome.outside)
  found := h.found

variable (henough : ∀ p, enough p = true ↔ p.left = 0)
include henough

theorem CutShort.orElse (ha : CutShort enough Keeps a a') (hb : CutShort enough Keeps b b') :
  CutShort enough Keeps (a.orElse b) (a'.orElse b')
  where
  eq_or := by
    rw [satisfies_orElse henough, satisfies_orElse henough]
    obtain rfl | ⟨ha, ha'⟩ := ha.eq_or
    · obtain rfl | ⟨hb, hb'⟩ := hb.eq_or
      · exact .inl rfl
      · exact .inr ⟨.inr hb, .inr hb'⟩
    · exact .inr ⟨.inl ha, .inl ha'⟩
  found hkeeps := by
    rw [Outcome.orElse, Outcome.orElse, ha.found hkeeps, hb.found hkeeps]

theorem CutShort.orRather (ha : CutShort enough Keeps a a') (hb : CutShort enough Keeps b b') :
  CutShort enough Keeps (a.orRather b) (a'.orRather b')
  where
  eq_or := by
    rw [satisfies_orRather henough, satisfies_orRather henough]
    obtain rfl | ⟨ha, ha'⟩ := ha.eq_or
    · obtain rfl | ⟨hb, hb'⟩ := hb.eq_or
      · exact .inl rfl
      · exact .inr ⟨.inr hb, .inr hb'⟩
    · exact .inr ⟨.inl ha, .inl ha'⟩
  found hkeeps := by
    rw [Outcome.orRather, Outcome.orRather, ha.found hkeeps, hb.found hkeeps]

theorem cutShort_explore {α β : Type} {search : α → Outcome} {search' : β → Outcome}
    {as : List α} {bs : List β}
    (h : List.Forall₂ (fun x y => CutShort enough Keeps (search x) (search' y)) as bs)
    {best best' : Outcome} (hbest : CutShort enough Keeps best best') :
  CutShort enough Keeps (explore enough search as best)
    (explore (fun _ => false) search' bs best')
  := by
  induction h generalizing best best' with
  | nil => apply hbest
  | @cons x y as bs hxy _ ih =>
      have hnext := hbest.orElse henough hxy
      have hnever : ¬ (best'.orElse (search' y)).satisfies (fun _ => false) = true := by
        simp [satisfies]
      rw [explore, explore, if_neg hnever]
      split
      · next hsat =>
        have hfound := found_explore_of_satisfies henough search' bs
          (hnext.satisfies_eq ▸ hsat)
        apply hnext.more hsat _ fun _ => hfound
        rw [satisfies, hfound, ← satisfies, ← hnext.satisfies_eq]
        apply hsat
      · apply ih hnext

end Outcome

/-- The first step and the second one bring back the same but for an early end, whenever the
continuations do. -/
def Step.CutShort (enough : Path → Bool) (Keeps : Prop) (step step' : Step) : Prop :=
  ∀ k k' : Continuation, (∀ p, Outcome.CutShort enough Keeps (k p) (k' p)) →
    ∀ p, Outcome.CutShort enough Keeps (step k p) (step' k' p)

section Rounds

variable {enough keeps : Path → Bool} {Keeps : Prop}
  (henough : ∀ p, enough p = true ↔ p.left = 0)
  {k k' : Continuation} (hk : ∀ p, Outcome.CutShort enough Keeps (k p) (k' p))

omit henough in
include hk in
theorem cutShort_endRound (mayStop : Bool) (p : Path) :
  Outcome.CutShort enough Keeps (endRound mayStop k p) (endRound mayStop k' p)
  := by
  cases mayStop with
  | false => apply CutShort.refl
  | true =>
      constructor
      · obtain heq | hsat := (hk p).eq_or
        · left
          rw [endRound, endRound, if_pos rfl, if_pos rfl, heq]
        · right
          apply hsat
      · apply (hk p).found

include henough

include hk in
theorem cutShort_round {steps steps' : List Step}
    (hs : List.Forall₂ (Step.CutShort enough Keeps) steps steps') (mayStop : Bool) (p : Path) :
  Outcome.CutShort enough Keeps (round enough steps mayStop k p)
    (round (fun _ => false) steps' mayStop k' p)
  := by
  apply cutShort_explore henough _ (CutShort.refl _)
  apply hs.imp
  intro step step' hstep
  apply hstep _ _ (cutShort_endRound hk mayStop)

/-- Joining one more round loses no path that is good enough, and changes none that is kept. -/
theorem joinRound_of_satisfies (hkeeps : Keeps → keeps = enough) {best : Outcome}
    (h : best.satisfies enough = true) {count : Nat} (hcount : 0 < count) (o : Outcome) :
  (joinRound keeps count best o).satisfies enough = true ∧
    (Keeps → (joinRound keeps count best o).found = best.found)
  := by
  constructor
  · rw [joinRound]
    split
    · apply (satisfies_orElse henough).mpr (.inl h)
    · apply (satisfies_orRather henough).mpr (.inl h)
  · intro hK
    rw [hkeeps hK, joinRound, if_pos ⟨hcount, h⟩, found_orElse_of_satisfies henough h]

/-- More rounds lose no path that is good enough, and change none that is kept. -/
theorem allRounds_of_satisfies (hkeeps : Keeps → keeps = enough) (steps : List Step)
    (reps : Reps) {count : Nat} (hcount : 0 < count) {best : Outcome}
    (h : best.satisfies enough = true) (p : Path) :
  (allRounds keeps steps reps k count best p).satisfies enough = true ∧
    (Keeps → (allRounds keeps steps reps k count best p).found = best.found)
  := by
  induction hn : p.left using Nat.strongRecOn generalizing count best p with
  | ind n ih =>
      rw [allRounds]
      split
      · dsimp only
        generalize round (fun _ => false) steps (decide (reps.least ≤ count + 1)) k p = o
        obtain ⟨hsat, hfound⟩ := joinRound_of_satisfies henough hkeeps h hcount o.outside
        split
        · use hsat
        · next e _ =>
          split
          · next hlt =>
            obtain ⟨hmore, hmoreFound⟩ :=
              ih e.path.left (hn ▸ hlt) (Nat.succ_pos count) hsat e.path rfl
            use hmore
            intro hK
            rw [hmoreFound hK, hfound hK]
          · split
            · use hsat
            · obtain ⟨hidle, hidleFound⟩ :=
                joinRound_of_satisfies henough hkeeps hsat (Nat.succ_pos count) (k e.path)
              use hidle
              intro hK
              rw [hidleFound hK, hfound hK]
      · exact ⟨h, fun _ => rfl⟩

omit henough in
/-- While nothing good enough was found the thorough search joins its rounds like the search that
stops. -/
theorem joinRound_of_not_satisfies (hkeep : ∀ p, keeps p = true → enough p = true)
    {best best' : Outcome} (hbest : Outcome.CutShort enough Keeps best best') {count : Nat}
    (h : 0 < count → ¬ best.satisfies enough = true) (o : Outcome) :
  joinRound keeps count best' o = best'.orRather o
  := by
  apply joinRound_eq_orRather
  intro hpos hsat
  obtain ⟨p, hp, hkept⟩ := (Option.any_eq_true _ _).mp hsat
  apply h hpos
  rw [hbest.satisfies_eq]
  exact (Option.any_eq_true _ _).mpr ⟨p, hp, hkeep p hkept⟩

/-- The rounds of a search that stops, and those of a thorough search.  The first one goes on
only as long as nothing good enough was found, and up to there the two are the same. -/
theorem cutShort_rounds (hkeeps : Keeps → keeps = enough)
    (hkeep : ∀ p, keeps p = true → enough p = true)
    (hk : ∀ p, Outcome.CutShort enough Keeps (k p) (k' p)) {steps steps' : List Step}
    (hs : List.Forall₂ (Step.CutShort enough Keeps) steps steps') {reps : Reps} {count : Nat}
    {best best' : Outcome} (hbest : Outcome.CutShort enough Keeps best best')
    (hcount : 0 < count → ¬ best.satisfies enough = true) (p : Path) :
  Outcome.CutShort enough Keeps (rounds enough steps reps k count best p)
    (allRounds keeps steps' reps k' count best' p)
  := by
  induction hn : p.left using Nat.strongRecOn generalizing count best best' p with
  | ind n ih =>
      rw [rounds, allRounds]
      split
      · have hround := cutShort_round henough hk hs (decide (reps.least ≤ count + 1)) p
        have hnext := hbest.orRather henough hround.outside
        dsimp only
        rw [joinRound_of_not_satisfies hkeep hbest hcount]
        split
        · next hsat =>
          have hsat' := hnext.satisfies_eq ▸ hsat
          split
          · apply hnext
          · next e _ =>
            split
            · obtain ⟨hmore, hfound⟩ := allRounds_of_satisfies (k := k') henough hkeeps steps'
                reps (Nat.succ_pos count) hsat' e.path
              apply hnext.more hsat hmore hfound
            · split
              · apply hnext
              · obtain ⟨hidle, hfound⟩ := joinRound_of_satisfies henough hkeeps hsat'
                  (Nat.succ_pos count) (k' e.path)
                apply hnext.more hsat hidle hfound
        · next hsat =>
          have hround' := hround.eq_of_not_satisfies fun ho =>
            hsat ((satisfies_orRather henough).mpr (.inr ho))
          rw [← hround'] at hnext ⊢
          cases (round enough steps (decide (reps.least ≤ count + 1)) k p).ending? with
          | none => apply hnext
          | some e =>
              dsimp only
              split
              · next hlt => apply ih e.path.left (hn ▸ hlt) hnext (fun _ => hsat) e.path rfl
              · split
                · apply hnext
                · rw [joinRound_of_not_satisfies hkeep hnext fun _ => hsat]
                  apply hnext.orRather henough (hk e.path)
      · apply hbest

theorem Step.CutShort.repeated (hkeeps : Keeps → keeps = enough)
    (hkeep : ∀ p, keeps p = true → enough p = true) {steps steps' : List Step}
    (hs : List.Forall₂ (Step.CutShort enough Keeps) steps steps') (reps : Reps) :
  Step.CutShort enough Keeps (Respell.repeated enough steps reps)
    (repeatedThroughout keeps steps' reps)
  := by
  intro k k' hk p
  apply cutShort_rounds henough hkeeps hkeep hk hs _ fun h => absurd h (Nat.lt_irrefl 0)
  split
  · apply hk p
  · apply CutShort.refl

end Rounds

/-! ### Searches along the same chain -/

namespace Search

section CutShort

variable {enough keeps : Path → Bool} {Keeps : Prop}
  (henough : ∀ p, enough p = true ↔ p.left = 0) (hkeeps : Keeps → keeps = enough)
  (hkeep : ∀ p, keeps p = true → enough p = true) (lexicon : Lexicon)

theorem cutShort_memberStep (casing : Casing) (m : Member) :
  Step.CutShort enough Keeps (memberStep casing m) (memberStep casing m)
  := by
  intro k k' hk p
  rw [memberStep, memberStep]
  split
  · apply hk
  · apply CutShort.refl

include henough

theorem cutShort_downFromMost (step? : Path → Option Path) (reps : Reps) :
  Step.CutShort enough Keeps ((Search.mk lexicon enough).downFromMost step? reps)
    ((exhaustive lexicon).downFromMost step? reps)
  := by
  intro k k' hk p
  apply cutShort_explore henough _ (CutShort.refl _)
  apply List.forall₂_same.mpr
  intro q _
  apply hk q

include hkeeps hkeep

theorem cutShort_leaf (content : Leaf) (reps : Reps) :
  Step.CutShort enough Keeps ((Search.mk lexicon enough).leaf reps content)
    ((Search.mk lexicon keeps).thoroughLeaf reps content)
  := by
  cases content with
  | byte b => apply cutShort_downFromMost henough
  | set s => apply cutShort_downFromMost henough
  | literal text replacement =>
      rw [thoroughLeaf, leaf, leaf, replaceText, replaceText]
      · split
        · intro k k' hk p
          apply hk
        · apply cutShort_downFromMost henough
      · intro id h
        cases h
  | memberOf id =>
      apply Step.CutShort.repeated henough hkeeps hkeep
      apply List.forall₂_same.mpr
      intro step hstep
      rw [classSteps] at hstep
      split at hstep
      · cases hstep
      · obtain ⟨m, -, rfl⟩ := List.mem_map.mp hstep
        apply cutShort_memberStep
  | wordEnd =>
      intro k k' hk p
      simp only [leaf, thoroughLeaf]
      split
      · apply hk
      · apply CutShort.refl
  | remainder =>
      intro k k' hk p
      have hall := hk (p.advance p.left p.rest)
      have hnone : (k (p.advance p.left p.rest)).found.isNone =
          (k' (p.advance p.left p.rest)).found.isNone := by
        obtain heq | ⟨ha, hb⟩ := hall.eq_or
        · rw [heq]
        · obtain ⟨q, hq, -⟩ := (Option.any_eq_true _ _).mp ha
          obtain ⟨q', hq', -⟩ := (Option.any_eq_true _ _).mp hb
          rw [hq, hq']
          rfl
      simp only [leaf, thoroughLeaf]
      rw [hnone]
      split
      · apply hall.orElse henough (hk p)
      · apply hall

omit henough hkeeps hkeep in
theorem cutShort_chain_of_nodes {nodes : List Node}
    (h : ∀ n ∈ nodes, Step.CutShort enough Keeps ((Search.mk lexicon enough).node n)
      ((Search.mk lexicon keeps).thoroughNode n)) :
  Step.CutShort enough Keeps ((Search.mk lexicon enough).chain nodes)
    ((Search.mk lexicon keeps).thoroughChain nodes)
  := by
  induction nodes with
  | nil =>
      intro k k' hk
      apply hk
  | cons n ns ih =>
      intro k k' hk
      apply h n List.mem_cons_self
      apply ih (fun m hm => h m (List.mem_cons_of_mem n hm)) k k' hk

theorem cutShort_node (n : Node) :
  Step.CutShort enough Keeps ((Search.mk lexicon enough).node n)
    ((Search.mk lexicon keeps).thoroughNode n)
  := by
  induction n using Node.ind with
  | leaf content reps => apply cutShort_leaf henough hkeeps hkeep
  | group number branches reps ih =>
      apply Step.CutShort.repeated henough hkeeps hkeep
      rw [branchSteps_eq_map, thoroughBranchSteps_eq_map]
      apply List.forall₂_map_left_iff.mpr
      apply List.forall₂_map_right_iff.mpr
      apply List.forall₂_same.mpr
      intro b hb k k' hk p
      rw [branchStep_eq, thoroughBranchStep_eq]
      apply cutShort_chain_of_nodes lexicon (ih b hb)
      intro q
      apply hk

/-- A search that stops and a thorough search find the same along a chain, or something good
enough both. -/
theorem cutShort_chain (nodes : List Node) :
  Step.CutShort enough Keeps ((Search.mk lexicon enough).chain nodes)
    ((Search.mk lexicon keeps).thoroughChain nodes)
  := cutShort_chain_of_nodes lexicon fun n _ => cutShort_node henough hkeeps hkeep lexicon n

end CutShort

end Search

/-! ### Where nothing is kept -/

section Never

variable {keeps : Path → Bool} {reps : Reps}

theorem not_satisfies_of_never (h : ∀ p, ¬ keeps p = true) (o : Outcome) :
  ¬ o.satisfies keeps = true
  := by
  intro hsat
  obtain ⟨p, -, hp⟩ := (Option.any_eq_true _ _).mp hsat
  apply h p hp

/-- The thorough search makes its rounds like the search that is never satisfied, when it keeps
no path, or when there is one round at most. -/
theorem allRounds_eq_rounds (h : (∀ p, ¬ keeps p = true) ∨ ∃ m ∈ reps.most, m ≤ 1)
    (steps : List Step) (k : Continuation) (count : Nat) (best : Outcome) (p : Path) :
  allRounds keeps steps reps k count best p = rounds (fun _ => false) steps reps k count best p
  := by
  induction hn : p.left using Nat.strongRecOn generalizing count best p with
  | ind n ih =>
      have hnever : ∀ o : Outcome, ¬ o.satisfies (fun _ => false) = true :=
        not_satisfies_of_never fun _ => Bool.false_ne_true
      rw [allRounds, rounds]
      split
      · next hmore =>
        have hfirst : ∀ best : Outcome, 0 < count → ¬ best.satisfies keeps = true := by
          intro best hpos
          obtain h | ⟨m, hm, hle⟩ := h
          · apply not_satisfies_of_never h
          · have := (reps.allowsMore_iff count).mp hmore m hm
            omega
        dsimp only
        rw [if_neg (hnever _), joinRound_eq_orRather (hfirst best)]
        cases (round (fun _ => false) steps (decide (reps.least ≤ count + 1)) k p).ending? with
        | none => rfl
        | some e =>
            dsimp only
            split
            · next hlt => apply ih e.path.left (hn ▸ hlt) _ _ _ rfl
            · split
              · rfl
              · next hstay =>
                apply joinRound_eq_orRather
                intro _
                obtain h | ⟨m, hm, hle⟩ := h
                · apply not_satisfies_of_never h
                · have := reps.least_le m hm
                  rw [decide_eq_true_eq] at hstay
                  omega
      · rfl

theorem repeatedThroughout_eq_repeated
    (h : (∀ p, ¬ keeps p = true) ∨ ∃ m ∈ reps.most, m ≤ 1) (steps : List Step) :
  repeatedThroughout keeps steps reps = repeated (fun _ => false) steps reps
  := by
  funext k p
  rw [repeatedThroughout, repeated, allRounds_eq_rounds h]

end Never

namespace Search

theorem thoroughChain_eq_of_nodes {s t : Search} {nodes : List Node}
    (h : ∀ n ∈ nodes, s.thoroughNode n = t.node n) :
  s.thoroughChain nodes = t.chain nodes
  := by
  induction nodes with
  | nil => rfl
  | cons n ns ih =>
      rw [thoroughChain, chain, h n List.mem_cons_self,
        ih (fun m hm => h m (List.mem_cons_of_mem n hm))]

/-- Only where something is repeated it matters to a thorough search which paths it keeps. -/
theorem thoroughNode_eq_node (s : Search) (n : Node)
    (h : ∀ m : Node, m.Occurs [n] → m.Repeats → ∀ p, ¬ s.enough p = true) :
  s.thoroughNode n = (exhaustive s.lexicon).node n
  := by
  have honce : ∀ reps : Reps, ((∀ m ∈ reps.most, 1 < m) → ∀ p, ¬ s.enough p = true) →
      (∀ p, ¬ s.enough p = true) ∨ ∃ m ∈ reps.most, m ≤ 1 := by
    intro reps hreps
    by_cases hmost : ∀ m ∈ reps.most, 1 < m
    · left
      apply hreps hmost
    · right
      apply Reps.exists_most_le_one hmost
  induction n using Node.ind with
  | leaf content reps =>
      have hleaf := h _ (Node.Occurs.here List.mem_cons_self)
      rw [thoroughNode, node]
      cases content with
      | memberOf id => apply repeatedThroughout_eq_repeated (honce reps hleaf)
      | _ => rfl
  | group number branches reps ih =>
      have hgroup := h _ (Node.Occurs.here List.mem_cons_self)
      have hsteps : s.thoroughBranchSteps number branches =
          (exhaustive s.lexicon).branchSteps number branches := by
        rw [thoroughBranchSteps_eq_map, branchSteps_eq_map]
        apply List.map_congr_left
        intro b hb
        have hchain : s.thoroughChain b.nodes = (exhaustive s.lexicon).chain b.nodes := by
          apply thoroughChain_eq_of_nodes
          intro n hn
          apply ih b hb n hn
          intro m hm
          apply h m (hm.ofBranch hb hn)
        rw [thoroughBranchStep_eq, branchStep_eq, hchain]
      rw [thoroughNode, node, hsteps, repeatedThroughout_eq_repeated (honce reps hgroup)]
      rfl

theorem thoroughChain_eq_chain (s : Search) {nodes : List Node}
    (h : ∀ m : Node, m.Occurs nodes → m.Repeats → ∀ p, ¬ s.enough p = true) :
  s.thoroughChain nodes = (exhaustive s.lexicon).chain nodes
  := by
  apply thoroughChain_eq_of_nodes
  intro n hn
  apply thoroughNode_eq_node
  intro m hm
  apply h m (Node.Occurs.ofMem hn hm)

end Search

end Respell
