import Respell.Match
import Respell.Proofs.Search.Thorough
import Respell.Reading
import Respell.Text.Utf8

/-!
# Stopping at the end of the word

The search stops at the first path through the whole word.  No match gets longer by searching
on, and one that leaves something of the word stays the same.  But a match of the whole word may
be given up for another one by a search that never stops, as it prefers later rounds: what it
gives out and captures is the same only if after each round a match of the whole word that was
found by then is kept against the rounds that follow, even if it is one without any round.
-/

namespace Respell

namespace Pattern

/-- The match that a search makes that never stops.  Of equally long matches it prefers one with
more rounds of a repetition. -/
def exhaustiveMatch? (pattern : Pattern) (lexicon : Lexicon) (word : Bytes) : Option Match :=
  ((Search.exhaustive lexicon).longest? pattern.nodes word).map (Match.ofPath word)

/-- The match that a search makes that never stops, but after each round keeps a match of the whole
word that it has found by then, with rounds or without any, against the rounds that follow. -/
def thoroughMatch? (pattern : Pattern) (lexicon : Lexicon) (word : Bytes) : Option Match :=
  ((Search.untilWordEnd lexicon).thoroughLongest? pattern.nodes word).map (Match.ofPath word)

section Paths

variable (pattern : Pattern) (lexicon : Lexicon) (word : Bytes)

/-- A thorough search finds what the search that stops at the end of the word finds. -/
theorem longestPath?_eq_thoroughLongest? :
  pattern.longestPath? lexicon word =
    (Search.untilWordEnd lexicon).thoroughLongest? pattern.nodes word
  := by
  have hdone : ∀ p, Outcome.CutShort (Search.untilWordEnd lexicon).enough True (.done p)
      (.done p) := fun p => .refl _
  have h := Search.cutShort_chain (Search.untilWordEnd_enough lexicon) (fun _ => rfl)
    (fun _ hp => hp) lexicon pattern.nodes _ _ hdone (.start word)
  exact h.found trivial

/-- A search that never stops finds the same path, or both find paths through the whole word. -/
theorem longestPath?_eq_or_exhaustive :
  pattern.longestPath? lexicon word = (Search.exhaustive lexicon).longest? pattern.nodes word ∨
    (∃ p ∈ pattern.longestPath? lexicon word, p.left = 0) ∧
      ∃ q ∈ (Search.exhaustive lexicon).longest? pattern.nodes word, q.left = 0
  := by
  have hdone : ∀ p, Outcome.CutShort (Search.untilWordEnd lexicon).enough False (.done p)
      (.done p) := fun p => .refl _
  have hnever : ∀ p, (Search.exhaustive lexicon).enough p = true →
      (Search.untilWordEnd lexicon).enough p = true := by
    intro p hp
    cases hp
  have hchain : (Search.exhaustive lexicon).thoroughChain pattern.nodes =
      (Search.exhaustive lexicon).chain pattern.nodes :=
    Search.thoroughChain_eq_chain _ fun _ _ _ _ => Bool.false_ne_true
  have h := Search.cutShort_chain (Search.untilWordEnd_enough lexicon) False.elim hnever lexicon
    pattern.nodes _ _ hdone (.start word)
  have hfull : ∀ {o : Outcome}, o.satisfies (Search.untilWordEnd lexicon).enough = true →
      ∃ p ∈ o.found, p.left = 0 := by
    intro o ho
    obtain ⟨p, hp, henough⟩ := (Option.any_eq_true _ _).mp ho
    use p, hp, (Search.untilWordEnd_enough lexicon p).mp henough
  rw [longestPath?, Search.longest?, Search.longest?, ← hchain]
  apply h.eq_or.imp (congrArg Outcome.found)
  rintro ⟨ha, hb⟩
  exact ⟨hfull ha, hfull hb⟩

/-- When nothing is repeated the search that never stops finds the same path. -/
theorem longestPath?_eq_exhaustive_of_once
    (h : ∀ n : Node, n.Occurs pattern.nodes → ¬ n.Repeats) :
  pattern.longestPath? lexicon word = (Search.exhaustive lexicon).longest? pattern.nodes word
  := by
  have hchain : (Search.untilWordEnd lexicon).thoroughChain pattern.nodes =
      (Search.exhaustive lexicon).chain pattern.nodes :=
    Search.thoroughChain_eq_chain _ fun n hn hrep => absurd hrep (h n hn)
  rw [longestPath?_eq_thoroughLongest?, Search.thoroughLongest?, hchain, Search.longest?]

end Paths

/-- Stopping at the end of the word is a matter of speed only, apart from one choice: after each
round, a match of the whole word that was found by then, with rounds or without any, is kept
against the rounds that follow.  A search that never stops and keeps this match makes the same
matches.  One that prefers the later rounds there as well matches the same words and takes equally
much of them, and it makes the same match when the match leaves something of the word and when no
group or class may be repeated more than once. -/
theorem longestMatch?_eq_thoroughMatch? (pattern : Pattern) (lexicon : Lexicon) (word : Bytes) :
  pattern.longestMatch? lexicon word = pattern.thoroughMatch? lexicon word ∧
    (pattern.longestMatch? lexicon word).map Match.length =
      (pattern.exhaustiveMatch? lexicon word).map Match.length ∧
    ((∀ m ∈ pattern.longestMatch? lexicon word, m.length ≠ word.length) →
      pattern.longestMatch? lexicon word = pattern.exhaustiveMatch? lexicon word) ∧
    ((∀ n : Node, n.Occurs pattern.nodes → ¬ n.Repeats) →
      pattern.longestMatch? lexicon word = pattern.exhaustiveMatch? lexicon word)
  := by
  have hlength : ∀ {p : Path}, p.left = 0 → (Match.ofPath word p).length = word.length := by
    intro p hp
    rw [Match.ofPath]
    dsimp only
    rw [hp, Nat.sub_zero]
  rw [longestMatch?, thoroughMatch?, exhaustiveMatch?, ← longestPath?_eq_thoroughLongest?]
  refine ⟨rfl, ?_, ?_, ?_⟩
  · obtain heq | ⟨⟨p, hp, hpleft⟩, q, hq, hqleft⟩ :=
      longestPath?_eq_or_exhaustive pattern lexicon word
    · rw [heq]
    · rw [hp, hq, Option.map_some, Option.map_some, Option.map_some, Option.map_some,
        hlength hpleft, hlength hqleft]
  · intro hshort
    obtain heq | ⟨⟨p, hp, hpleft⟩, -⟩ := longestPath?_eq_or_exhaustive pattern lexicon word
    · rw [heq]
    · rw [hp] at hshort
      exact absurd (hlength hpleft) (hshort _ rfl)
  · intro honce
    rw [longestPath?_eq_exhaustive_of_once pattern lexicon word honce]

/-- A match that leaves something of the word, along a pattern that repeats only bytes. -/
theorem longestMatch?_eq_exhaustiveMatch?_of_prefix :
  let r := Reading.ofSource (Utf8.encode "(a|x,ab)?<v:b>?c*") .empty
  let word := Utf8.encode "abcd"
  (∀ m ∈ r.pattern.longestMatch? r.lexicon word, m.length ≠ word.length) ∧
    (∀ n : Node, n.Occurs r.pattern.nodes → ¬ n.Repeats) ∧
    r.pattern.longestMatch? r.lexicon word = r.pattern.exhaustiveMatch? r.lexicon word ∧
    (r.pattern.longestMatch? r.lexicon word).map Match.output = some "xbc"
  := by
  intro r word
  have hshort : ∀ m ∈ r.pattern.longestMatch? r.lexicon word, m.length ≠ word.length := by
    decide +kernel
  have hnodes : r.pattern.nodes = [.group 1 [⟨[.leaf (.byte 97) .once], some [120]⟩,
      ⟨[.leaf (.literal [97, 98] [97, 98]) .once], none⟩] .optional,
      .leaf (.memberOf ⟨0⟩) .optional, .leaf (.byte 99) .anyNumber] := by
    decide +kernel
  have honce : ∀ n : Node, n.Occurs r.pattern.nodes → ¬ n.Repeats := by
    rw [hnodes]
    rintro n (hn | ⟨hg, hb, hn⟩) hrep
    · simp only [List.mem_cons, List.not_mem_nil, or_false] at hn
      rcases hn with rfl | rfl | rfl
      · cases Nat.lt_irrefl 1 (hrep 1 rfl)
      · cases Nat.lt_irrefl 1 (hrep 1 rfl)
      · cases hrep
    · simp only [List.mem_cons, reduceCtorEq, List.not_mem_nil, or_false] at hg
      cases hg
      simp only [List.mem_cons, List.not_mem_nil, or_false] at hb
      rcases hb with rfl | rfl
      · obtain rfl := hn.eq_leaf
        cases hrep
      · obtain rfl := hn.eq_leaf
        cases hrep
  have h := longestMatch?_eq_thoroughMatch? r.pattern r.lexicon word
  exact ⟨hshort, honce, h.2.2.1 hshort, by decide +kernel⟩

/-- Without any round of the group the word is matched, and the first round leads no farther, so
that a second one is not made.  It would lead through the word as well. -/
example :
    let r := Reading.ofSource (Utf8.encode "(a|x)*(aa)?") .empty
    let word := Utf8.encode "aa"
    (r.pattern.longestMatch? r.lexicon word).map Match.output = some "aa" ∧
      (r.pattern.thoroughMatch? r.lexicon word).map Match.output = some "aa" ∧
      (r.pattern.exhaustiveMatch? r.lexicon word).map Match.output = some "xx" := by
  decide +kernel

/-- When a second round of the group is tried as well, it takes a byte that was left to the rest
of the pattern before, and the word becomes another one. -/
theorem longestMatch?_ne_exhaustiveMatch? :
  ¬ ∀ (pattern : Pattern) (lexicon : Lexicon) (word : Bytes),
    pattern.longestMatch? lexicon word = pattern.exhaustiveMatch? lexicon word
  := by
  intro h
  let r := Reading.ofSource (Utf8.encode "(a|x)*a*") .empty
  let word := Utf8.encode "aa"
  have hfirst : (r.pattern.longestMatch? r.lexicon word).map Match.output = some "xa" := by
    decide +kernel
  have hlater : (r.pattern.exhaustiveMatch? r.lexicon word).map Match.output = some "xx" := by
    decide +kernel
  rw [h, hlater] at hfirst
  exact absurd hfirst (by decide)

end Pattern

end Respell
