import Mathlib.Data.List.Basic
import Respell.Proofs.Choice
import Respell.Proofs.Search.Completeness

/-!
# Searches keep the preferred way

When no group or class of a pattern is repeated, a search keeps, of the ways that leave
the least of the word unread, the one that is preferred.  The search does not try the ways
in the order of preference, since it goes on with the rest of the pattern before it tries
the first repetition, and it does not try all of them, since it stops at a path through
the whole word.
-/

namespace Respell

open Outcome

/-! ### The closest one of many -/

/-- The one of many that leaves the least unread, and the first of those. -/
def closestOf {α : Type} (left : α → Nat) (as : List (Option α)) : Option α :=
  as.foldr (closest left) none

section ClosestOf

variable {α β : Type} {left : α → Nat}

theorem closestOf_singleton (a : Option α) :
  closestOf left [a] = a
  := closest_none_right a

theorem closestOf_append (as bs : List (Option α)) :
  closestOf left (as ++ bs) = closest left (closestOf left as) (closestOf left bs)
  := by
  induction as with
  | nil => rfl
  | cons a as ih =>
      have hcons : closestOf left (a :: as ++ bs) =
          closest left a (closestOf left (as ++ bs)) := rfl
      rw [hcons, ih, ← closest_assoc]
      rfl

/-- The closest one of all is the closest of the closest ones of some parts. -/
theorem closestOf_flatMap (bs : List β) (f : β → List (Option α)) :
  closestOf left (bs.flatMap f) = closestOf left (bs.map fun b => closestOf left (f b))
  := by
  induction bs with
  | nil => rfl
  | cons b bs ih =>
      rw [List.flatMap_cons, closestOf_append, ih]
      rfl

/-- The closest one of the images is the image of the closest one. -/
theorem closestOf_map (f : β → α) (bs : List (Option β)) :
  closestOf left (bs.map (Option.map f)) = (closestOf (fun b => left (f b)) bs).map f
  := by
  induction bs with
  | nil => rfl
  | cons b bs ih =>
      have hcons : closestOf left ((b :: bs).map (Option.map f)) =
          closest left (b.map f) (closestOf left (bs.map (Option.map f))) := rfl
      rw [hcons, ih, closest_map]
      rfl

/-- The closest one leaves no more than any of them. -/
theorem closestOf_le (left : α → Nat) {as : List (Option α)} {x : α} (hx : some x ∈ as) :
  ∃ y ∈ closestOf left as, left y ≤ left x
  := by
  induction as with
  | nil => cases hx
  | cons a as ih =>
      rcases List.mem_cons.mp hx with rfl | hx
      · apply closest_le_left
        exact ⟨x, rfl, Nat.le_refl _⟩
      · apply closest_le_right (ih hx)

/-- The closest one comes after those that leave more, and before those that leave no
less. -/
theorem exists_of_closestOf {bs : List β} {f : β → α} {a : α}
    (h : closestOf left (bs.map fun b => some (f b)) = some a) :
  ∃ before b after, bs = before ++ b :: after ∧ a = f b ∧
    (∀ c ∈ before, left a < left (f c)) ∧ ∀ c ∈ after, left a ≤ left (f c)
  := by
  have hle : ∀ c ∈ bs, left a ≤ left (f c) := by
    intro c hc
    have hmem : some (f c) ∈ bs.map fun b => some (f b) :=
      List.mem_map_of_mem (f := fun b => some (f b)) hc
    obtain ⟨y, hy, hle⟩ := closestOf_le left hmem
    rw [h] at hy
    obtain rfl := Option.some.inj hy
    apply hle
  induction bs with
  | nil => cases h
  | cons d bs ih =>
      have hcons : closest left (some (f d)) (closestOf left (bs.map fun b => some (f b))) =
          some a := h
      have hfirst : a = f d → ∃ before b after, d :: bs = before ++ b :: after ∧ a = f b ∧
          (∀ c ∈ before, left a < left (f c)) ∧ ∀ c ∈ after, left a ≤ left (f c) := by
        intro had
        refine ⟨[], d, bs, rfl, had, List.forall_mem_nil _, ?_⟩
        exact fun c hc => hle c (List.mem_cons_of_mem d hc)
      cases hq : closestOf left (bs.map fun b => some (f b)) with
      | none =>
          rw [hq] at hcons
          apply hfirst (Option.some.inj hcons).symm
      | some q =>
          rw [hq, closest] at hcons
          split at hcons
          · next hlt =>
            obtain rfl := Option.some.inj hcons
            obtain ⟨before, b, after, rfl, hb, hbefore, hafter⟩ :=
              ih hq (fun c hc => hle c (List.mem_cons_of_mem d hc))
            refine ⟨d :: before, b, after, rfl, hb, ?_, hafter⟩
            intro c hc
            rcases List.mem_cons.mp hc with rfl | hc
            · apply hlt
            · apply hbefore c hc
          · apply hfirst (Option.some.inj hcons).symm

theorem mem_of_closestOf {as : List α} {a : α} (h : closestOf left (as.map some) = some a) :
  a ∈ as
  := by
  obtain ⟨before, b, after, rfl, rfl, -⟩ := exists_of_closestOf (f := id) h
  apply List.mem_append_right
  apply List.mem_cons_self

end ClosestOf

/-- Nothing is closer than a path through the whole word. -/
theorem closest_full {o : Outcome} (h : o.Full) (q : Option Path) :
  closest Path.left o.found q = o.found
  := by
  obtain ⟨p, hp, hleft⟩ := h
  rw [Option.mem_def.mp hp]
  cases q with
  | none => rfl
  | some q =>
      rw [closest, if_neg]
      omega

/-! ### Steps that keep the preferred one -/

/-- Of the alternatives that are explored the closest one is found, although exploring stops
at a path through the whole word. -/
theorem found_explore {α : Type} {enough : Path → Bool} {search : α → Outcome}
    (henough : ∀ p, enough p = true → p.left = 0) (as : List α) (best : Outcome) :
  (explore enough search as best).found =
    closest Path.left best.found (closestOf Path.left (as.map fun a => (search a).found))
  := by
  induction as generalizing best with
  | nil =>
      apply (closest_none_right _).symm
  | cons a as ih =>
      have hassoc : closest Path.left best.found
          (closestOf Path.left ((a :: as).map fun a => (search a).found)) =
            closest Path.left (best.orElse (search a)).found
              (closestOf Path.left (as.map fun a => (search a).found)) :=
        (closest_assoc _ _ _).symm
      rw [explore, hassoc]
      split
      · next hsat =>
        apply (closest_full (full_of_satisfies henough hsat) _).symm
      · apply ih

/-- The closest path that the continuation finds after the ways of a choice, and of equally
close ones the preferred one. -/
def Choice.found (C : Choice) (k : Continuation) (p : Path) : Option Path :=
  closestOf Path.left ((C p.place).map fun x => (k (p.along x.1 x.2)).found)

/-- A step finds what is found after the ways of a choice. -/
def Step.Chooses (step : Step) (C : Choice) : Prop :=
  ∀ (k : Continuation) (p : Path), k.Forward → (step k p).found = C.found k p

namespace Step

theorem Chooses.comp {step step' : Step} {C D : Choice} {W : Way} (hC : step.Chooses C)
    (hD : step'.Chooses D) (hs : step'.Sound W) (hW : W.Onward) :
  Step.Chooses (fun k => step (step' k)) (C.comp D)
  := by
  intro k p hk
  rw [hC (step' k) p (hs.forward hW hk), Choice.found, Choice.found, Choice.comp,
    List.map_flatMap, closestOf_flatMap]
  congr 1
  apply List.map_congr_left
  rintro ⟨s, b⟩ -
  rw [hD k _ hk, Choice.found, Path.place_along, List.map_map]
  congr 1
  apply List.map_congr_left
  rintro ⟨t, c⟩ -
  rw [Path.along_along]
  rfl

theorem Chooses.enclose {step : Step} {C : Choice} (hC : step.Chooses C) (number : Nat)
    (replacement : Option Bytes) :
  Step.Chooses (fun k p => step (fun q => k (q.leaveBranch p.given number replacement)) p)
    (C.enclose number replacement)
  := by
  intro k p hk
  have hforward : Continuation.Forward fun q => k (q.leaveBranch p.given number replacement) := by
    intro q
    apply hk
  rw [hC _ p hforward, Choice.found, Choice.found, Choice.enclose, List.map_map]
  congr 1
  apply List.map_congr_left
  rintro ⟨s, b⟩ -
  dsimp only
  rw [Path.leaveBranch_along]
  rfl

/-- Of all that some steps find the closest one is what is found after all their choices. -/
theorem closestOf_alternatives {α : Type} {as : List α} {step : α → Step} {C : α → Choice}
    (h : ∀ x ∈ as, (step x).Chooses (C x)) {k : Continuation} (hk : k.Forward) (p : Path) :
  closestOf Path.left ((as.map step).map fun step => (step k p).found) =
    Choice.found (fun a => as.flatMap fun x => C x a) k p
  := by
  rw [Choice.found, List.map_flatMap, closestOf_flatMap, List.map_map]
  congr 1
  apply List.map_congr_left
  intro x hx
  apply h x hx k p hk

/-- A round of a single step is this step. -/
theorem round_singleton (enough : Path → Bool) (step : Step) (mayStop : Bool) (k : Continuation)
    (p : Path) :
  round enough [step] mayStop k p = step (endRound mayStop k) p
  := by
  have hfail : ∀ o : Outcome, Outcome.fail.orElse o = o := fun _ => rfl
  rw [round, explore, explore, hfail]
  exact ite_self _

/-- When there is at most one round, it is preferred to none, although it is tried later. -/
theorem rounds_of_once {enough : Path → Bool} {steps : List Step} {reps : Reps}
    (h : reps.most = some 1) (k : Continuation) (best : Outcome) (p : Path) :
  rounds enough steps reps k 0 best p = best.orRather (round enough steps true k p).outside
  := by
  have hleast : reps.least ≤ 0 + 1 := reps.least_le 1 h
  have hmore : reps.allowsMore 0 = true := by rw [Reps.allowsMore, h]; rfl
  have hnomore : ¬ reps.allowsMore (0 + 1) = true := by rw [Reps.allowsMore, h]; decide
  rw [rounds, if_pos hmore]
  dsimp only
  rw [decide_eq_true hleast]
  split
  · rfl
  · split
    · rfl
    · split
      · rw [rounds, if_neg hnomore]
      · rfl

/-- A step that may be repeated at most once keeps what one round of it keeps, or else goes
on without it. -/
theorem Chooses.repeated {enough : Path → Bool} (henough : ∀ p, enough p = true → p.left = 0)
    {steps : List Step} {C : Choice}
    (hC : ∀ (k : Continuation) (p : Path), k.Forward →
      closestOf Path.left (steps.map fun step => (step k p).found) = C.found k p)
    {reps : Reps} (h : ∃ m ∈ reps.most, m ≤ 1) :
  Step.Chooses (Respell.repeated enough steps reps) (C.repeated reps)
  := by
  intro k p hk
  obtain ⟨m, hm, hle⟩ := h
  rw [Respell.repeated]
  obtain rfl | rfl := Nat.le_one_iff_eq_zero_or_eq_one.mp hle
  · have hleast : reps.least = 0 := Nat.le_zero.mp (reps.least_le 0 hm)
    have hnomore : ¬ reps.allowsMore 0 = true := by rw [Reps.allowsMore, hm]; decide
    rw [rounds, if_neg hnomore, if_pos hleast, C.repeated_of_never hm, Choice.found]
    exact (closestOf_singleton _).symm
  · have hround : (round enough steps true k p).found = C.found k p := by
      rw [round, found_explore henough, hC _ p (forward_endRound hk true)]
      rfl
    rw [rounds_of_once hm, orRather, Choice.found, C.repeated_of_once hm, List.map_append,
      closestOf_append]
    dsimp only
    congr 1
    split
    · exact (closestOf_singleton _).symm
    · rfl

end Step

/-! ### Steps that take some of the word -/

/-- The elements of a list from one index on, one by one. -/
theorem flatMap_getElem?_range' {α : Type} (l : List α) (i n : Nat) :
  (List.range' i n).flatMap (fun j => l[j]?.toList) = (l.drop i).take n
  := by
  induction n generalizing i with
  | zero =>
      rw [List.range'_zero, List.flatMap_nil, List.take_zero]
  | succ n ih =>
      rw [List.range'_succ, List.flatMap_cons, ih,
        List.drop_eq_getElem?_toList_append (l := l) (i := i)]
      cases h : l[i]? with
      | none =>
          have hlength := List.getElem?_eq_none_iff.mp h
          simp [List.drop_eq_nil_of_le (Nat.le_succ_of_le hlength)]
      | some x => rfl

namespace Path

/-- A step goes from each path to where its only choice leads. -/
def Follows (step? : Path → Option Path) (C : Choice) : Prop :=
  ∀ p, (step? p).toList = (C p.place).map fun x => p.along x.1 x.2

theorem follows_copyByte (accepts : UInt8 → Bool) :
  Follows (copyByte? accepts) (Choice.copyByte accepts)
  := by
  rintro ⟨rest, given, captures⟩
  cases rest with
  | nil => rfl
  | cons c rest =>
      simp only [copyByte?, Choice.copyByte, place]
      split
      · rfl
      · rfl

theorem follows_replaceText (text replacement : Bytes) :
  Follows (replaceText? text replacement) (Choice.replaceText .folded text replacement)
  := by
  intro p
  rw [replaceText?, Choice.replaceText, place]
  split
  · rfl
  · rfl

theorem length_iterates_le (step? : Path → Option Path) (n : Nat) (p : Path) :
  (iterates step? n p).length ≤ n + 1
  := by
  induction n generalizing p with
  | zero => apply Nat.le_refl
  | succ n ih =>
      rw [iterates]
      split
      · apply Nat.le_add_left
      · apply Nat.succ_le_succ (ih _)

/-- Iterating a step follows the repetitions of its choice. -/
theorem toList_getElem?_iterates {step? : Path → Option Path} {C : Choice}
    (hC : Follows step? C) {n k : Nat} (hk : k ≤ n) (p : Path) :
  ((iterates step? n p)[k]?).toList = (C.times k p.place).map fun x => p.along x.1 x.2
  := by
  induction n generalizing p k with
  | zero =>
      obtain rfl := Nat.le_zero.mp hk
      rfl
  | succ n ih =>
      cases k with
      | zero =>
          rw [getElem?_iterates_zero]
          rfl
      | succ k =>
          have hp := hC p
          rw [iterates, Choice.times, Choice.comp]
          cases hstep : step? p with
          | none =>
              rw [hstep] at hp
              rw [List.map_eq_nil_iff.mp hp.symm]
              rfl
          | some q =>
              rw [hstep] at hp
              obtain ⟨x, hx, rfl⟩ := List.map_eq_singleton_iff.mp hp.symm
              rw [hx, List.flatMap_singleton, List.map_map]
              dsimp only
              rw [List.getElem?_cons_succ, ih (Nat.le_of_succ_le_succ hk), place_along]
              apply List.map_congr_left
              rintro y -
              apply along_along

/-- The iterations of a step from the most to the fewest follow the repetitions of its choice. -/
theorem reverse_drop_iterates {step? : Path → Option Path} {C : Choice} (hC : Follows step? C)
    (reps : Reps) (p : Path) :
  ((iterates step? (reps.most.getD p.left) p).drop reps.least).reverse =
    (C.repeated reps p.place).map fun x => p.along x.1 x.2
  := by
  have hlength : ((iterates step? (reps.most.getD p.left) p).drop reps.least).length ≤
      reps.most.getD p.left + 1 - reps.least := by
    rw [List.length_drop]
    apply Nat.sub_le_sub_right (length_iterates_le step? _ p)
  rw [Choice.repeated, List.map_flatMap, List.flatMap_reverse,
    ← List.take_of_length_le hlength, ← flatMap_getElem?_range']
  congr 1
  apply List.flatMap_congr
  intro n hn
  have hn : n ≤ reps.most.getD p.left := by
    have := List.mem_range'_1.mp hn
    omega
  rw [Function.comp_apply, ← toList_getElem?_iterates hC hn]
  cases (iterates step? (reps.most.getD p.left) p)[n]? with
  | none => rfl
  | some q => rfl

end Path

namespace Search

variable (lexicon : Lexicon)

theorem chooses_downFromMost {step? : Path → Option Path} {C : Choice}
    (hC : Path.Follows step? C) (reps : Reps) :
  ((untilWordEnd lexicon).downFromMost step? reps).Chooses (C.repeated reps)
  := by
  intro k p _
  rw [downFromMost, found_explore (left_of_enough lexicon), Path.reverse_drop_iterates hC reps p,
    List.map_map]
  rfl

theorem chooses_memberStep (casing : Casing) (m : Member) :
  (memberStep casing m).Chooses (Choice.replaceText casing m.text m.replacement)
  := by
  intro k p _
  rw [memberStep, Choice.found, Choice.replaceText, Path.place]
  split
  · exact (closestOf_singleton _).symm
  · rfl

/-- The rest of the word is preferred to nothing, and if anything is found after it, that is
as good as any. -/
theorem chooses_remainder (reps : Reps) :
  ((untilWordEnd lexicon).leaf reps .remainder).Chooses (Choice.leaf lexicon reps .remainder)
  := by
  intro k p hk
  have hadvance : p.advance p.left p.rest = p.along p.rest ⟨[], p.captures⟩ := by
    simp [Path.advance, Path.along, Path.left]
  simp only [leaf, hadvance, Bool.and_eq_true, decide_eq_true_eq]
  by_cases hleast : reps.least = 0
  · have hchoice : (Choice.leaf lexicon reps .remainder).found k p =
        closest Path.left (k (p.along p.rest ⟨[], p.captures⟩)).found (k p).found := by
      simp only [Choice.found, Choice.leaf, if_pos hleast]
      rw [← closest_none_right (k p).found]
      rfl
    rw [hchoice]
    split
    · rfl
    · next hall =>
      apply (closest_full _ _).symm
      have hsome : (k (p.along p.rest ⟨[], p.captures⟩)).found ≠ none :=
        fun hnone => hall ⟨Option.isNone_iff_eq_none.mpr hnone, hleast⟩
      obtain ⟨q, hq⟩ := Option.ne_none_iff_exists'.mp hsome
      use q, hq
      apply hk _ q hq
  · simp only [Choice.found, Choice.leaf, if_neg hleast]
    rw [if_neg fun h => hleast h.2]
    exact (closestOf_singleton _).symm

theorem chooses_leaf {reps : Reps} {content : Leaf}
    (h : ¬ (Node.leaf content reps).Repeats) :
  ((untilWordEnd lexicon).leaf reps content).Chooses (Choice.leaf lexicon reps content)
  := by
  cases content with
  | byte b => apply chooses_downFromMost lexicon (Path.follows_copyByte _)
  | set members => apply chooses_downFromMost lexicon (Path.follows_copyByte _)
  | literal text replacement =>
      simp only [leaf, replaceText, Choice.leaf, List.isEmpty_iff]
      split
      · intro k p _
        exact (closestOf_singleton _).symm
      · apply chooses_downFromMost lexicon (Path.follows_replaceText text replacement)
  | memberOf id =>
      apply Step.Chooses.repeated (left_of_enough lexicon) _ (Reps.exists_most_le_one h)
      intro k p hk
      have hlexicon : (untilWordEnd lexicon).lexicon = lexicon := rfl
      rw [classSteps, hlexicon, Choice.found, Choice.member]
      cases lexicon.get? id with
      | none => rfl
      | some c =>
          apply Step.closestOf_alternatives _ hk
          intro m _
          apply chooses_memberStep
  | wordEnd =>
      intro k p _
      have hchoice : Choice.leaf lexicon reps .wordEnd p.place =
          if p.rest = [] ∨ reps.least = 0 then Choice.stay p.place else [] := rfl
      rw [Choice.found, hchoice]
      simp only [leaf, Bool.or_eq_true, List.isEmpty_iff, decide_eq_true_eq]
      split
      · exact (closestOf_singleton _).symm
      · rfl
  | remainder => apply chooses_remainder

theorem chooses_chain_of_nodes {nodes : List Node}
    (h : ∀ n ∈ nodes, ((untilWordEnd lexicon).node n).Chooses (Choice.node lexicon n)) :
  ((untilWordEnd lexicon).chain nodes).Chooses (Choice.chain lexicon nodes)
  := by
  induction nodes with
  | nil =>
      intro k p _
      exact (closestOf_singleton _).symm
  | cons n ns ih =>
      apply (h n List.mem_cons_self).comp _ ((untilWordEnd lexicon).sound_chain ns)
        (Ways.onward_chain _ ns)
      apply ih (fun m hm => h m (List.mem_cons_of_mem n hm))

theorem chooses_node (n : Node) (h : ∀ m : Node, m.Occurs [n] → ¬ m.Repeats) :
  ((untilWordEnd lexicon).node n).Chooses (Choice.node lexicon n)
  := by
  induction n using Node.ind with
  | leaf content reps =>
      apply chooses_leaf
      apply h _ (Node.Occurs.here List.mem_cons_self)
  | group number branches reps ih =>
      apply Step.Chooses.repeated (left_of_enough lexicon)
      · intro k p hk
        rw [branchSteps_eq_map, Choice.branchOf_eq_flatMap]
        apply Step.closestOf_alternatives _ hk
        intro b hb
        rw [branchStep_eq, Choice.branch_eq]
        apply Step.Chooses.enclose
        apply chooses_chain_of_nodes
        intro n hn
        apply ih b hb n hn
        intro m hm
        apply h m (hm.ofBranch hb hn)
      · apply Reps.exists_most_le_one (h _ (Node.Occurs.here List.mem_cons_self))

/-- The search along a chain in which no group or class is repeated keeps the preferred one
of its ways. -/
theorem chooses_chain {nodes : List Node} (h : ∀ n : Node, n.Occurs nodes → ¬ n.Repeats) :
  ((untilWordEnd lexicon).chain nodes).Chooses (Choice.chain lexicon nodes)
  := by
  apply chooses_chain_of_nodes
  intro n hn
  apply chooses_node
  intro m hm
  apply h m (Node.Occurs.ofMem hn hm)

end Search

/-! ### The match of a pattern is made by its preferred way -/

namespace Pattern

/-- When no group or class of a pattern is repeated, the path that is found is the closest
one of those along its ways. -/
theorem longestPath?_eq_closestOf {pattern : Pattern} (lexicon : Lexicon) (word : Bytes)
    (h : ∀ n : Node, n.Occurs pattern.nodes → ¬ n.Repeats) :
  pattern.longestPath? lexicon word =
    closestOf Path.left ((Choice.chain lexicon pattern.nodes (.start word)).map fun x =>
      some ((Path.start word).along x.1 x.2))
  := by
  apply Search.chooses_chain lexicon h Outcome.done (Path.start word) forward_done

/-- When no group or class of a pattern is repeated, the list of its choices is the list of
its ways in the order of preference.  The pattern matches exactly when there is a way, and
the match is made by the first one of the longest ways in that order. -/
theorem longestMatch?_eq_first_longest {pattern : Pattern} {lexicon : Lexicon}
    (word : Bytes) (h : ∀ n : Node, n.Occurs pattern.nodes → ¬ n.Repeats) :
  let ways := Choice.chain lexicon pattern.nodes (.start word)
  (∀ t b, (t, b) ∈ ways ↔ (Ways.every lexicon).chain pattern.nodes (.start word) t b) ∧
    (pattern.longestMatch? lexicon word = none ↔
      ¬ ∃ t b, (Ways.every lexicon).chain pattern.nodes (.start word) t b) ∧
    ∀ m, pattern.longestMatch? lexicon word = some m → ∃ before t b after,
      ways = before ++ (t, b) :: after ∧ m = Match.ofWay word t b ∧
        (∀ x ∈ before, (Match.ofWay word x.1 x.2).length < m.length) ∧
        ∀ x ∈ after, (Match.ofWay word x.1 x.2).length ≤ m.length
  := by
  intro ways
  have hways : ∀ t b, (t, b) ∈ ways ↔
      (Ways.every lexicon).chain pattern.nodes (.start word) t b :=
    Choice.lists_chain lexicon h (.start word)
  have hlongest := longestPath?_eq_closestOf lexicon word h
  use hways
  constructor
  · rw [longestMatch?, Option.map_eq_none_iff]
    constructor
    · rintro hnone ⟨t, b, hw⟩
      have hmem : some ((Path.start word).along t b) ∈
          ways.map fun x => some ((Path.start word).along x.1 x.2) :=
        List.mem_map.mpr ⟨(t, b), (hways t b).mpr hw, rfl⟩
      obtain ⟨p, hp, -⟩ := closestOf_le Path.left hmem
      cases (hlongest.symm.trans hnone).symm.trans hp
    · intro hno
      apply Option.eq_none_iff_forall_ne_some.mpr
      intro p hp
      obtain ⟨t, b, hw, -⟩ := exists_way_of_longestPath? hp
      apply hno ⟨t, b, hw⟩
  · intro m hm
    obtain ⟨p, hp, rfl⟩ := Option.map_eq_some_iff.mp hm
    rw [hlongest] at hp
    obtain ⟨before, ⟨t, b⟩, after, hsplit, rfl, hbefore, hafter⟩ := exists_of_closestOf hp
    refine ⟨before, t, b, after, hsplit, Match.ofPath_along word t b, ?_, ?_⟩
    · rintro ⟨s, c⟩ hc
      have hlt : b.rest.length < c.rest.length := hbefore (s, c) hc
      have hmem : (s, c) ∈ before ++ (t, b) :: after := List.mem_append_left _ hc
      rw [← hsplit] at hmem
      have hle : c.rest.length ≤ word.length :=
        (Ways.onward_chain _ _ _ _ _ ((hways s c).mp hmem)).length_le
      change word.length - c.rest.length < word.length - b.rest.length
      omega
    · rintro ⟨s, c⟩ hc
      apply Nat.sub_le_sub_left (hafter (s, c) hc)

/-- Of three longest ways the one with the first branch is preferred, although the one
without the group is tried before it. -/
theorem longestMatch?_eq_first_of_branches :
  let r := Reading.ofSource (Utf8.encode "(a|x,aa|y)?a*") .empty
  let word := Utf8.encode "aa"
  (∀ n : Node, n.Occurs r.pattern.nodes → ¬ n.Repeats) ∧
    ∃ m, r.pattern.longestMatch? r.lexicon word = some m ∧ m.output = "xa" ∧
      ∃ before t b after,
        Choice.chain r.lexicon r.pattern.nodes (.start word) = before ++ (t, b) :: after ∧
          m = Match.ofWay word t b ∧
            (∀ x ∈ before, (Match.ofWay word x.1 x.2).length < m.length) ∧
            ∀ x ∈ after, (Match.ofWay word x.1 x.2).length ≤ m.length
  := by
  intro r word
  have h : ∀ n : Node, n.Occurs r.pattern.nodes → ¬ n.Repeats := by
    have hnodes : r.pattern.nodes = [.group 1 [⟨[.leaf (.byte 97) .once], some [120]⟩,
        ⟨[.leaf (.literal [97, 97] [97, 97]) .once], some [121]⟩] .optional,
        .leaf (.byte 97) .anyNumber] := by
      decide +kernel
    rw [hnodes]
    rintro n (hn | ⟨hg, hb, hn⟩) hrep
    · simp only [List.mem_cons, List.not_mem_nil, or_false] at hn
      rcases hn with rfl | rfl
      · cases Nat.lt_irrefl 1 (hrep 1 rfl)
      · cases hrep
    · simp only [List.mem_cons, reduceCtorEq, List.not_mem_nil, or_false] at hg
      cases hg
      simp only [List.mem_cons, List.not_mem_nil, or_false] at hb
      rcases hb with rfl | rfl
      · obtain rfl := hn.eq_leaf
        cases hrep
      · obtain rfl := hn.eq_leaf
        cases hrep
  have hm : r.pattern.longestMatch? r.lexicon word =
      some ⟨2, "xa", Captures.put (Captures.put .none 1 "x") 0 "xa"⟩ := by
    decide +kernel
  exact ⟨h, _, hm, rfl, (longestMatch?_eq_first_longest word h).2.2 _ hm⟩

end Pattern

end Respell
