import Respell.Match
import Respell.Proofs.Alternation
import Respell.Proofs.EarlyStop
import Respell.Proofs.Search.Comparison
import Respell.Proofs.Search.Preference

/-!
# Repeated leaves as groups

Bytes, sets and literals are repeated from the most to the fewest, groups round after round.
Where one repetition can end in only one place, both ways of repeating consider the same
numbers of repetitions, so that what they find leaves equally much of the word unread.  The
paths that are found need not be the same: of equally good ones the first one is kept, and the
numbers of repetitions are tried in another order.
-/

namespace Respell

open Outcome

/-! ### How much is left unread -/

section Left

variable {α : Type} {left : α → Nat}

theorem map_closest (a b : Option α) :
  (closest left a b).map left = closest id (a.map left) (b.map left)
  := (@closest_map Nat id α left a b).symm

theorem map_closestOf (as : List (Option α)) :
  (closestOf left as).map left = closestOf id (as.map (Option.map left))
  := by
  induction as with
  | nil => rfl
  | cons a as ih =>
      have hmap := @map_closest _ left a (closestOf left as)
      rw [ih] at hmap
      exact hmap

/-- Of two numbers it does not matter which one comes first. -/
theorem closest_comm (a b : Option Nat) :
  closest id a b = closest id b a
  := by
  cases a with
  | none => exact (closest_none_right b).symm
  | some m =>
      cases b with
      | none => rfl
      | some n =>
          simp only [closest, id_eq]
          split
          · rw [if_neg (by omega)]
          · split
            · rfl
            · congr 1
              omega

/-- Nothing is less than zero. -/
theorem closest_zero (b : Option Nat) :
  closest id (some 0) b = some 0
  := by
  cases b with
  | none => rfl
  | some n => rw [closest, id_eq, id_eq, if_neg (Nat.not_lt_zero n)]

theorem closestOf_reverse (as : List (Option Nat)) :
  closestOf id as.reverse = closestOf id as
  := by
  induction as with
  | nil => rfl
  | cons a as ih =>
      rw [List.reverse_cons, closestOf_append, closestOf_singleton, ih, closest_comm]
      rfl

end Left

namespace Outcome

/-- How much the path that was found leaves unread. -/
def left? (o : Outcome) : Option Nat := o.found.map Path.left

theorem left?_orRather (a b : Outcome) :
  (a.orRather b).left? = closest id a.left? b.left?
  := by
  rw [left?, orRather, map_closest, closest_comm]
  rfl

section Enough

variable {enough : Path → Bool} (henough : ∀ p, enough p = true → p.left = 0)
include henough

theorem left?_of_satisfies {o : Outcome} (h : o.satisfies enough = true) :
  o.left? = some 0
  := by
  obtain ⟨p, hp, hleft⟩ := full_of_satisfies henough h
  rw [left?, Option.mem_def.mp hp, Option.map_some, Nat.le_zero.mp hleft]

theorem left?_explore {α : Type} {search : α → Outcome} (as : List α) (best : Outcome) :
  (explore enough search as best).left? =
    closest id best.left? (closestOf id (as.map fun a => (search a).left?))
  := by
  rw [left?, found_explore henough, map_closest, map_closestOf, List.map_map]
  rfl

end Enough

end Outcome

/-- The least that is left unread by the paths that are found from some paths. -/
def Continuation.least? (k : Continuation) (paths : List Path) : Option Nat :=
  closestOf id (paths.map fun p => (k p).left?)

theorem Continuation.least?_cons (k : Continuation) (p : Path) (ps : List Path) :
  k.least? (p :: ps) = closest id (k p).left? (k.least? ps)
  := rfl

namespace Outcome

/-- The comparison of how much the paths that were found leave unread. -/
def equallyLong : Comparison := .ofFound (fun p q => p.left = q.left) fun _ _ h => h

theorem equallyLong_holds_iff {a b : Outcome} :
  equallyLong.Holds a b ↔ a.left? = b.left?
  := by
  have hrel : ∀ p q : Option Path,
      Option.Rel (fun p q => p.left = q.left) p q ↔ p.map Path.left = q.map Path.left := by
    intro p q
    cases p with
    | none =>
        cases q with
        | none => simp
        | some q => simp
    | some p =>
        cases q with
        | none => simp
        | some q => simp
  rw [left?, left?, ← hrel]
  exact ⟨Comparison.Holds.found, fun h => ⟨h, trivial⟩⟩

end Outcome

/-! ### Steps that lead to one place -/

theorem Path.exists_iterates_eq_cons (step? : Path → Option Path) (n : Nat) (p : Path) :
  ∃ ps, iterates step? n p = p :: ps
  := by
  rw [← List.head?_eq_some_iff, List.head?_eq_getElem?]
  apply getElem?_iterates_zero

/-- The step that goes on from the one place that it leads to, if there is one. -/
def Step.ofPartial (step? : Path → Option Path) : Step := fun k p => (step? p).elim .fail k

section Partial

variable {enough : Path → Bool} {step? : Path → Option Path}

/-- After one more repetition the path counts unless there are still too few. -/
theorem Continuation.least?_drop_cons (k : Continuation) (least count n : Nat) (p q : Path) :
  k.least? ((p :: Path.iterates step? n q).drop (max 1 (least - count))) =
    closest id (if least ≤ count + 1 then k q else .fail).left?
      (k.least? ((Path.iterates step? n q).drop (max 1 (least - (count + 1)))))
  := by
  split
  · have hone : max 1 (least - count) = 1 := by omega
    have hone' : max 1 (least - (count + 1)) = 1 := by omega
    obtain ⟨ps, hps⟩ := Path.exists_iterates_eq_cons step? n q
    rw [hone, hone', hps, List.drop_succ_cons, List.drop_zero, k.least?_cons, List.drop_succ_cons,
      List.drop_zero]
  · have hsucc : max 1 (least - count) = max 1 (least - (count + 1)) + 1 := by omega
    rw [hsucc, List.drop_succ_cons]
    rfl

section Rounds

variable {reps : Reps} {k : Continuation} {count : Nat} (best : Outcome) {p q : Path}

/-- There are no more rounds when the step leads nowhere. -/
theorem rounds_of_none (h : step? p = none) :
  rounds enough [.ofPartial step?] reps k count best p = best
  := by
  have hbest : best.orRather fail.outside = best := by
    rw [orRather, outside]
    exact congrArg (Outcome.mk best.found) (joinEndings_nil best.endings)
  rw [rounds]
  split
  · dsimp only
    rw [Step.round_singleton, Step.ofPartial, h, Option.elim_none, hbest]
    exact ite_self _
  · rfl

/-- The next round starts where the step leads. -/
theorem rounds_of_some (h : step? p = some q) (hlt : q.left < p.left)
    (hmore : reps.allowsMore count = true) :
  let next := best.orRather (if reps.least ≤ count + 1 then k q else .fail)
  rounds enough [.ofPartial step?] reps k count best p =
    if next.satisfies enough then next
    else rounds enough [.ofPartial step?] reps k (count + 1) next q
  := by
  have hround : (endRound (decide (reps.least ≤ count + 1)) k q).outside =
      if reps.least ≤ count + 1 then k q else .fail := by
    simp only [endRound, decide_eq_true_eq]
    rfl
  have hending : (endRound (decide (reps.least ≤ count + 1)) k q).ending?.map Ending.path =
      some q := rfl
  intro next
  rw [rounds, if_pos hmore]
  dsimp only
  rw [Step.round_singleton, Step.ofPartial, h, Option.elim_some, hround]
  obtain ⟨e, he, rfl⟩ := Option.map_eq_some_iff.mp hending
  rw [he]
  dsimp only
  rw [if_pos hlt]

end Rounds

variable (henough : ∀ p, enough p = true → p.left = 0)
  (hstep : ∀ p q, step? p = some q → q.left < p.left) (reps : Reps) (k : Continuation)
include henough hstep

/-- When `count` repetitions were made and at most `n` more are possible, what is found leaves
as much as the best after any of these, apart from those after which there are too few. -/
theorem left?_rounds (n : Nat) {count : Nat} (hless : ∀ i < n, reps.allowsMore (count + i) = true)
    (best : Outcome) {p : Path} (hmost : reps.allowsMore (count + n) = true → p.left ≤ n) :
  (rounds enough [.ofPartial step?] reps k count best p).left? =
    closest id best.left?
      (k.least? ((Path.iterates step? n p).drop (max 1 (reps.least - count))))
  := by
  -- when the step leads nowhere, only the paths from before remain
  have hstay : ∀ (d : Nat) (best : Outcome) (p : Path),
      best.left? = closest id best.left? (k.least? ([p].drop (max 1 d))) := by
    intro d best p
    rw [List.drop_of_length_le (Nat.le_max_left 1 d)]
    exact (closest_none_right best.left?).symm
  induction n generalizing count best p with
  | zero =>
      rw [Path.iterates, ← hstay]
      by_cases hmore : reps.allowsMore count = true
      · have hnone : step? p = none := by
          apply Option.eq_none_iff_forall_ne_some.mpr
          intro q hq
          have hlt := hstep p q hq
          have hle := hmost hmore
          omega
        rw [rounds_of_none best hnone]
      · rw [rounds, if_neg hmore]
  | succ n ih =>
      rw [Path.iterates]
      cases hq : step? p with
      | none =>
          dsimp only
          rw [← hstay, rounds_of_none best hq]
      | some q =>
          have hlt := hstep p q hq
          have hmore : reps.allowsMore count = true := hless 0 (Nat.succ_pos n)
          dsimp only
          rw [k.least?_drop_cons, ← closest_assoc, ← left?_orRather, rounds_of_some best hq hlt hmore]
          generalize best.orRather _ = next
          split
          · next hsat => rw [left?_of_satisfies henough hsat, closest_zero]
          · apply ih
            · intro i hi
              have hmore := hless (i + 1) (Nat.succ_lt_succ hi)
              rwa [Nat.add_comm i, ← Nat.add_assoc] at hmore
            · intro hmore
              rw [Nat.add_assoc, Nat.add_comm 1] at hmore
              have hle := hmost hmore
              omega

/-- Round after round the same is left as from the most repetitions down to the fewest. -/
theorem left?_repeated (s : Search) (hs : s.enough = enough) (p : Path) :
  (repeated enough [.ofPartial step?] reps k p).left? = (s.downFromMost step? reps k p).left?
  := by
  have hless : ∀ i < reps.most.getD p.left, reps.allowsMore (0 + i) = true := by
    intro i hi
    rw [Nat.zero_add, Reps.allowsMore_iff]
    intro m hm
    rw [hm] at hi
    exact hi
  have hmost : reps.allowsMore (0 + reps.most.getD p.left) = true →
      p.left ≤ reps.most.getD p.left := by
    intro hmore
    rw [Nat.zero_add, Reps.allowsMore_iff] at hmore
    cases hm : reps.most with
    | none => exact Nat.le_refl p.left
    | some m =>
        have hlt := hmore m hm
        rw [hm] at hlt
        exact absurd hlt (Nat.lt_irrefl m)
  have hdown : (s.downFromMost step? reps k p).left? =
      k.least? ((Path.iterates step? (reps.most.getD p.left) p).drop reps.least) := by
    rw [Search.downFromMost, left?_explore (hs ▸ henough), List.map_reverse, closestOf_reverse]
    rfl
  rw [hdown, repeated, left?_rounds henough hstep reps k _ hless _ hmost]
  obtain ⟨ps, hps⟩ := Path.exists_iterates_eq_cons step? (reps.most.getD p.left) p
  rw [hps, Nat.sub_zero]
  split
  · next hleast =>
    rw [hleast, Nat.max_eq_left (Nat.zero_le 1), List.drop_zero, List.drop_succ_cons,
      List.drop_zero, k.least?_cons]
  · next hleast =>
    rw [Nat.max_eq_right (Nat.one_le_iff_ne_zero.mpr hleast)]
    rfl

end Partial

/-! ### Leaves that take bytes -/

namespace Leaf

/-- Each repetition of the leaf takes some bytes of the word, and there is at most one way to
take them. -/
def TakesBytes : Leaf → Prop
  | byte _ => True
  | set _ => True
  | literal text _ => text ≠ []
  | memberOf _ => False
  | wordEnd => False
  | remainder => False

/-- Where one repetition of a leaf that takes bytes leads. -/
def once? : Leaf → Path → Option Path
  | byte b => Path.copyByte? fun c => Casing.folded.key b = Casing.folded.key c
  | set members => Path.copyByte? members.contains
  | literal text replacement => Path.replaceText? text replacement
  | memberOf _ => fun _ => none
  | wordEnd => fun _ => none
  | remainder => fun _ => none

/-- A repetition takes some bytes and gives out a text for them. -/
theorem exists_advance_of_once? {content : Leaf} (hcontent : content.TakesBytes) {p q : Path}
    (h : content.once? p = some q) :
  q.left < p.left ∧ ∃ n text, q = p.advance n text
  := by
  have hbyte : ∀ accepts : UInt8 → Bool, p.copyByte? accepts = some q →
      q.left < p.left ∧ ∃ n text, q = p.advance n text := by
    intro accepts h
    obtain ⟨rest, given, captures⟩ := p
    cases rest with
    | nil => cases h
    | cons b rest =>
        obtain ⟨-, h⟩ := Option.ite_none_right_eq_some.mp h
        obtain rfl := Option.some.inj h
        exact ⟨Nat.lt_succ_self rest.length, 1, [b], rfl⟩
  cases content with
  | byte b => exact hbyte _ h
  | set members => exact hbyte _ h
  | literal text replacement =>
      obtain ⟨hleads, h⟩ := Option.ite_none_right_eq_some.mp h
      obtain rfl := Option.some.inj h
      have hle := Casing.length_le_of_leads hleads
      have hpos := List.length_pos_iff.mpr hcontent
      refine ⟨?_, _, _, rfl⟩
      rw [Path.left, Path.left, Path.advance, List.length_drop]
      omega
  | memberOf id => cases h
  | wordEnd => cases h
  | remainder => cases h

end Leaf

namespace Search

variable (s : Search) {content : Leaf} (hcontent : content.TakesBytes)
include hcontent

theorem leaf_of_takesBytes (reps : Reps) :
  s.leaf reps content = s.downFromMost content.once? reps
  := by
  cases content with
  | byte b => rfl
  | set members => rfl
  | literal text replacement =>
      rw [leaf, replaceText, if_neg (by rwa [List.isEmpty_iff])]
      rfl
  | memberOf id => cases hcontent
  | wordEnd => cases hcontent
  | remainder => cases hcontent

/-- The leaf as the only node of a branch that captures nothing. -/
theorem branchStep_leaf {number : Nat} (hnumber : captureCount ≤ number) :
  s.branchStep number ⟨[.leaf content .once], none⟩ = .ofPartial content.once?
  := by
  funext k p
  rw [branchStep_eq, chain, chain, node, leaf_of_takesBytes s hcontent]
  dsimp only
  rw [downFromMost_once, Step.ofPartial]
  cases h : content.once? p with
  | none => rfl
  | some q =>
      obtain ⟨-, n, text, rfl⟩ := Leaf.exists_advance_of_once? hcontent h
      rw [Option.elim_some, Option.elim_some, Path.leaveBranch_advance p n text hnumber]

/-- The leaf and the group find paths that are equally long, if they are followed by steps that
do. -/
theorem agree_leaf_group (henough : ∀ p, s.enough p = true ↔ p.left = 0) (reps : Reps)
    {number : Nat} (hnumber : captureCount ≤ number) :
  Step.Agree equallyLong Eq (s.chain [.leaf content reps])
    (s.chain [.group number [⟨[.leaf content .once], none⟩] reps])
  := by
  rintro k k' hk p _ rfl
  rw [chain_singleton, chain_singleton]
  have hleaf := agree_node Path.kept_eq henough (.leaf content reps) equallyLong k k' hk p p rfl
  rw [equallyLong_holds_iff] at hleaf ⊢
  rw [hleaf, node, node, branchSteps, branchSteps, s.branchStep_leaf hcontent hnumber,
    left?_repeated (fun p hp => (henough p).mp hp)
      (fun p q hq => (Leaf.exists_advance_of_once? hcontent hq).1) reps k' s rfl,
    s.leaf_of_takesBytes hcontent]

end Search

namespace Pattern

/-- Instead of a repeated leaf that takes bytes a pattern may as well repeat a group of this
leaf that captures nothing: it matches the same words and takes equally much of them, whatever
comes before and after. -/
theorem map_length_longestMatch?_eq_of_group (lexicon : Lexicon) (before after : List Node)
    {content : Leaf} (hcontent : content.TakesBytes) (reps : Reps) {number : Nat}
    (hnumber : captureCount ≤ number) (word : Bytes) :
  let single := ofNodes (before ++ [.leaf content reps] ++ after)
  let grouped := ofNodes (before ++ [.group number [⟨[.leaf content .once], none⟩] reps] ++ after)
  (single.longestMatch? lexicon word).map Match.length =
    (grouped.longestMatch? lexicon word).map Match.length
  := by
  intro single grouped
  have henough := Search.untilWordEnd_enough lexicon
  have hnode := (Search.untilWordEnd lexicon).agree_leaf_group hcontent henough reps hnumber
  have hchain := Search.agree_chain_between Path.kept_eq henough equallyLong before after hnode
  have hfound := hchain .done .done (fun p q h => h ▸ ⟨Option.Rel.some rfl, trivial⟩)
    (.start word) _ rfl
  have hlength : ∀ o : Option Path,
      (o.map (Match.ofPath word)).map Match.length = (o.map Path.left).map (word.length - ·) := by
    intro o
    rw [Option.map_map, Option.map_map]
    rfl
  rw [equallyLong_holds_iff] at hfound
  rw [longestMatch?, longestMatch?, hlength, hlength]
  exact congrArg (Option.map (word.length - ·)) hfound

/-- Both take the whole word, and what they give out is not the same. -/
theorem map_length_longestMatch?_eq_of_byte :
  let before := [Node.leaf (.byte 98) .optional]
  let after := [Node.group 1 [⟨[.leaf (.byte 97) .once], some [120]⟩] .anyNumber]
  let single := ofNodes (before ++ [.leaf (.byte 97) .anyNumber] ++ after)
  let grouped := ofNodes
    (before ++ [.group 12 [⟨[.leaf (.byte 97) .once], none⟩] .anyNumber] ++ after)
  let word := Utf8.encode "baa"
  (Leaf.byte 97).TakesBytes ∧ captureCount ≤ 12 ∧
    (single.longestMatch? .empty word).map Match.length =
      (grouped.longestMatch? .empty word).map Match.length ∧
    single.longestMatch? .empty word = some ⟨3, "baa", Captures.put .none 0 "baa"⟩ ∧
    (grouped.longestMatch? .empty word).map Match.output = some "bax"
  := by
  intro before after single grouped word
  have hcontent : (Leaf.byte 97).TakesBytes := trivial
  have hnumber : captureCount ≤ 12 := by decide
  have hlength := map_length_longestMatch?_eq_of_group .empty before after hcontent .anyNumber
    hnumber word
  refine ⟨hcontent, hnumber, hlength, ?_, ?_⟩
  · decide +kernel
  · decide +kernel

end Pattern

end Respell
