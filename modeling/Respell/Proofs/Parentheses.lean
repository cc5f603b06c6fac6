import Respell.Match
import Respell.Proofs.EarlyStop
import Respell.Proofs.Search.Comparison
import Respell.Proofs.Search.Preference
import Respell.Reading

/-!
# Parentheses

A part of a chain may be put in parentheses: it becomes the only branch of a group that is matched
once and that gives out what the part gives out.  The search along the group is one round, which
brings back one more ending, and it captures something.  As neither has an influence on what is
chosen, inside or outside of repeated groups, both searches find the same path, apart from this
capture.
-/

namespace Respell

open Outcome

/-- In the second chain a part of the first one is in parentheses with the given number.  The part
may be empty, and it may be within other groups. -/
inductive Parenthesized (number : Nat) : List Node → List Node → Prop
  | here (before part after : List Node) :
      Parenthesized number (before ++ part ++ after)
        (before ++ [.group number [⟨part, none⟩] .once] ++ after)
  | inside {nodes nodes' : List Node} (before after : List Node) (outer : Nat) (reps : Reps)
      (branches branches' : List (Branch Node)) (replacement : Option Bytes)
      (h : Parenthesized number nodes nodes') :
      Parenthesized number
        (before ++ [.group outer (branches ++ ⟨nodes, replacement⟩ :: branches') reps] ++ after)
        (before ++ [.group outer (branches ++ ⟨nodes', replacement⟩ :: branches') reps] ++ after)

/-! ### Paths that differ in one capture -/

/-- The paths are the same apart from what is captured under a number, and what had been given out
at an entry is still there. -/
structure Path.SameBut (number : Nat) (entry : Bytes) (p q : Path) : Prop where
  rest : p.rest = q.rest
  given : p.given = q.given
  captures : ∀ i ≠ number, p.captures.get? i = q.captures.get? i
  entry : entry <:+ p.given

namespace Path.SameBut

variable {number : Nat} {entry inner : Bytes} {p q : Path}

theorem kept (number : Nat) (entry : Bytes) :
  Path.Kept (Path.SameBut number entry)
  where
  rest_eq h := h.rest
  advance h n text :=
    ⟨congrArg (List.drop n) h.rest, congrArg (text.reverse ++ ·) h.given, h.captures,
      h.entry.trans (List.suffix_append _ _)⟩
  leaveBranch h h' n replacement := by
    refine ⟨h'.rest, ?_, ?_, h.entry.trans (List.suffix_append _ _)⟩
    · simp only [Path.leaveBranch, h.given, h'.given]
    · intro i hi
      simp only [Path.leaveBranch, h.given, h'.given, Captures.get?_put, h'.captures i hi]

/-- The place itself is an entry. -/
theorem reenter (h : Path.SameBut number entry p q) :
  Path.SameBut number q.given p q
  := ⟨h.rest, h.given, h.captures, h.given ▸ List.suffix_refl _⟩

/-- Leaving a branch without a replacement captures something, and nothing else. -/
theorem leave (h : Path.SameBut number inner p q) (hentry : entry <:+ inner) :
  Path.SameBut number entry p (q.leaveBranch inner number none)
  := by
  have hgiven : (q.leaveBranch inner number none).given = q.given := by
    obtain ⟨text, htext⟩ := h.entry
    rw [h.given] at htext
    simp [leaveBranch, ← htext]
  refine ⟨h.rest, h.given.trans hgiven.symm, ?_, hentry.trans h.entry⟩
  intro i hi
  rw [h.captures i hi, leaveBranch, Captures.get?_put, if_neg fun h => hi h.1.symm]

end Path.SameBut

/-! ### A group that is matched once -/

/-- The comparison of outcomes of which only the second one is inside a repetition. -/
def Outcome.Comparison.oneInside (c : Comparison) : Comparison where
  found := c.found
  endings ds es := c.endings ds es.tail
  left_eq := c.left_eq
  nil := c.nil
  join h h' := by
    rw [tail_joinEndings]
    exact c.join h h'

theorem repeated_once (enough : Path → Bool) (step : Step) (k : Continuation) (p : Path) :
  repeated enough [step] .once k p = (step (endRound true k) p).outside
  := by
  have hfail : ∀ o : Outcome, Outcome.fail.orRather o = o := by
    intro o
    exact congrArg (Outcome.mk · o.endings) (closest_none_right o.found)
  rw [repeated, Step.rounds_of_once rfl, Step.round_singleton]
  exact hfail _

namespace Search

variable {s : Search} (henough : ∀ p, s.enough p = true ↔ p.left = 0) {number : Nat}
include henough

/-- A chain agrees with the group of this chain. -/
theorem agree_group_once (c : Comparison) (entry : Bytes) (part : List Node) :
  Step.Agree c (Path.SameBut number entry) (s.chain part)
    (s.node (.group number [⟨part, none⟩] .once))
  := by
  intro k k' hk p q hpq
  -- within the group, what had been given out in front of it stays, so that leaving it keeps that
  have hpart := agree_chain (Path.SameBut.kept number q.given) henough c.oneInside part
  have hgroup : s.node (.group number [⟨part, none⟩] .once) k' q =
      (s.chain part (fun q' => endRound true k' (q'.leaveBranch q.given number none)) q).outside
    := by
    rw [node, branchSteps, branchSteps, repeated_once, branchStep_eq]
  rw [hgroup]
  have hholds : c.oneInside.Holds (s.chain part k p)
      (s.chain part (fun q' => endRound true k' (q'.leaveBranch q.given number none)) q) := by
    apply hpart _ _ _ p q hpq.reenter
    intro p' q' hpq'
    have hentry : entry <:+ q.given := hpq.given ▸ hpq.entry
    have hend := hk _ _ (hpq'.leave hentry)
    exact ⟨hend.found, hend.endings⟩
  exact ⟨hholds.found, hholds.endings⟩

/-- Chains that are the same apart from parentheses agree. -/
theorem agree_of_parenthesized {nodes nodes' : List Node}
    (h : Parenthesized number nodes nodes') :
  ∀ c entry, Step.Agree c (Path.SameBut number entry) (s.chain nodes) (s.chain nodes')
  := by
  -- every comparison is needed, since each group around the part sees the endings of one more
  induction h with
  | here before part after =>
      intro c entry
      have hkept := Path.SameBut.kept number entry
      apply agree_chain_between hkept henough c before after
      rw [chain_singleton]
      apply agree_group_once henough c entry part
  | inside before after outer reps branches branches' replacement _ ih =>
      intro c entry
      have hkept := Path.SameBut.kept number entry
      apply agree_chain_between hkept henough c before after
      rw [chain_singleton, chain_singleton]
      apply agree_group_between hkept henough c
      apply ih

end Search

/-- The matches are the same apart from what is captured under a number. -/
structure Match.SameBut (number : Nat) (m m' : Match) : Prop where
  length : m.length = m'.length
  output : m.output = m'.output
  captures : ∀ i ≠ number, m.captures.get? i = m'.captures.get? i

/-- Paths that are the same apart from one capture make matches that are. -/
theorem Match.sameBut_ofPath {number : Nat} {entry : Bytes} {p q : Path}
    (h : Path.SameBut number entry p q) (word : Bytes) :
  Match.SameBut number (ofPath word p) (ofPath word q)
  where
  length := by
    rw [ofPath, ofPath, Path.left, Path.left, h.rest]
  output := by
    rw [ofPath, ofPath, Path.output, Path.output, h.given]
  captures i hi := by
    simp only [ofPath, Captures.get?_put, Captures.get?_map, h.captures i hi, Path.output, h.given]

namespace Pattern

/-- Parentheses around a part of a pattern, at any depth, change nothing but what is captured under
their number: the pattern matches the same words, takes equally much of them, gives out the same for
them and captures the same under all other numbers. -/
theorem sameBut_longestMatch?_of_parenthesized (lexicon : Lexicon) {number : Nat}
    {nodes nodes' : List Node} (h : Parenthesized number nodes nodes') (word : Bytes) :
  Option.Rel (Match.SameBut number) ((ofNodes nodes).longestMatch? lexicon word)
    ((ofNodes nodes').longestMatch? lexicon word)
  := by
  have hkept := Path.SameBut.kept number []
  have hstart : Path.SameBut number [] (.start word) (.start word) :=
    ⟨rfl, rfl, fun _ _ => rfl, List.nil_suffix⟩
  have hchain := Search.agree_of_parenthesized (Search.untilWordEnd_enough lexicon) h
    (.ofFound (Path.SameBut number []) hkept.left_eq) []
  have hfound : Option.Rel (Path.SameBut number []) ((ofNodes nodes).longestPath? lexicon word)
      ((ofNodes nodes').longestPath? lexicon word) :=
    (hchain .done .done (fun p q h => ⟨Option.Rel.some h, trivial⟩) _ _ hstart).found
  rw [longestMatch?, longestMatch?]
  generalize (ofNodes nodes).longestPath? lexicon word = found at hfound ⊢
  generalize (ofNodes nodes').longestPath? lexicon word = found' at hfound ⊢
  cases hfound with
  | none => exact Option.Rel.none
  | some h =>
      apply Option.Rel.some
      apply Match.sameBut_ofPath h

/-- Parentheses within a branch of a repeated group. -/
theorem sameBut_longestMatch?_of_branch :
  let nodes := (Reading.ofSource (Utf8.encode "(a|x,ab*c)+a") .empty).pattern.nodes
  let nodes' := (Reading.ofSource (Utf8.encode "(a|x,a(b*)c)+a") .empty).pattern.nodes
  let word := Utf8.encode "aabbcaca"
  Parenthesized 2 nodes nodes' ∧
    Option.Rel (Match.SameBut 2) ((ofNodes nodes).longestMatch? .empty word)
      ((ofNodes nodes').longestMatch? .empty word) ∧
    ((ofNodes nodes').longestMatch? .empty word).map Match.output = some "xabbcaca" ∧
    ((ofNodes nodes').longestMatch? .empty word).bind (·.captures.get? 2) = some ""
  := by
  intro nodes nodes' word
  have hnodes : nodes = [] ++ [.group 1 ([⟨[.leaf (.byte 97) .once], some [120]⟩] ++
      ⟨[.leaf (.byte 97) .once] ++ [.leaf (.byte 98) .anyNumber] ++ [.leaf (.byte 99) .once],
        none⟩ :: []) .oneOrMore] ++ [.leaf (.byte 97) .once] := by
    decide +kernel
  have hnodes' : nodes' = [] ++ [.group 1 ([⟨[.leaf (.byte 97) .once], some [120]⟩] ++
      ⟨[.leaf (.byte 97) .once] ++ [.group 2 [⟨[.leaf (.byte 98) .anyNumber], none⟩] .once] ++
        [.leaf (.byte 99) .once], none⟩ :: []) .oneOrMore] ++ [.leaf (.byte 97) .once] := by
    decide +kernel
  have h : Parenthesized 2 nodes nodes' := by
    rw [hnodes, hnodes']
    apply Parenthesized.inside
    apply Parenthesized.here
  refine ⟨h, sameBut_longestMatch?_of_parenthesized .empty h word, ?_, ?_⟩
  · decide +kernel
  · decide +kernel

end Pattern

end Respell
