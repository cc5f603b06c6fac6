import Mathlib.Order.Bounds.Basic
import Respell.Proofs.Search.Committed
import Respell.Rule

/-!
# The longest match

How the length of the match of a pattern compares with its ways.  The match takes as much as
the longest committed path, and so at least as much as every sure way.  There are patterns with
a way along them and without a match; but when no repeated node could end a repetition in
different places, the match is the longest of all ways.
-/

namespace Respell

namespace Pattern

/-- A sure way through the front of a word is not longer than the path that is found. -/
theorem exists_longestPath?_of_sure {pattern : Pattern} {lexicon : Lexicon} {word t : Bytes}
    {b : Place} (h : (Ways.sure lexicon).chain pattern.nodes (.start word) t b) :
  ∃ p, pattern.longestPath? lexicon word = some p ∧ p.left ≤ b.rest.length
  := by
  apply Search.complete_chain lexicon pattern.nodes Outcome.done (Path.start word)
    (.path b.rest.length) (.start word) t b forward_done rfl h
  intro q hq
  use q, rfl
  rw [Path.left, hq]

theorem exists_longestMatch?_of_sure {pattern : Pattern} {lexicon : Lexicon}
    {word t : Bytes} {b : Place}
    (h : (Ways.sure lexicon).chain pattern.nodes (.start word) t b) :
  ∃ m, pattern.longestMatch? lexicon word = some m ∧ (Match.ofWay word t b).length ≤ m.length
  := by
  obtain ⟨p, hp, hle⟩ := exists_longestPath?_of_sure h
  use Match.ofPath word p
  rw [longestMatch?, hp]
  use rfl
  apply Nat.sub_le_sub_left hle

/-- The committed paths along a pattern through the front of a word. -/
def committedPaths (pattern : Pattern) (lexicon : Lexicon) (word : Bytes) : List Path :=
  Routes.chain lexicon pattern.nodes .done (.start word)

section Committed

variable (pattern : Pattern) (lexicon : Lexicon) (word : Bytes)

/-- The search comes as far as the committed path that comes farthest. -/
theorem map_left_longestPath? :
  (pattern.longestPath? lexicon word).map Path.left =
    (closestOf Path.left ((pattern.committedPaths lexicon word).map some)).map Path.left
  := by
  have h := Search.tries_chain lexicon pattern.nodes Outcome.done (Path.start word) forward_done
  apply h.found.trans
  have hclosest := @closestOf_map Nat Path id Path.left
    ((pattern.committedPaths lexicon word).map some)
  rw [Outcome.map_left_joined, List.map_map]
  rwa [List.map_map] at hclosest

variable {pattern lexicon word}

/-- The path that is found comes as far as a committed one, and no committed one comes farther. -/
theorem exists_committed_of_longestPath? {p : Path}
    (h : pattern.longestPath? lexicon word = some p) :
  (∃ q ∈ pattern.committedPaths lexicon word, q.left = p.left) ∧
    ∀ q ∈ pattern.committedPaths lexicon word, p.left ≤ q.left
  := by
  have hleft := map_left_longestPath? pattern lexicon word
  rw [h] at hleft
  obtain ⟨q, hq, hqleft⟩ := Option.map_eq_some_iff.mp hleft.symm
  constructor
  · use q, mem_of_closestOf hq, hqleft
  · intro q' hq'
    obtain ⟨y, hy, hle⟩ := closestOf_le Path.left (List.mem_map_of_mem (f := some) hq')
    rw [hq] at hy
    obtain rfl := Option.some.inj hy
    rwa [hqleft] at hle

/-- From a committed path on something is found. -/
theorem exists_longestPath?_of_committed {q : Path}
    (hq : q ∈ pattern.committedPaths lexicon word) :
  ∃ p, pattern.longestPath? lexicon word = some p ∧ p.left ≤ q.left
  := by
  have hleft := map_left_longestPath? pattern lexicon word
  obtain ⟨y, hy, hle⟩ := closestOf_le Path.left (List.mem_map_of_mem (f := some) hq)
  rw [Option.mem_def.mp hy] at hleft
  obtain ⟨p, hp, hpleft⟩ := Option.map_eq_some_iff.mp hleft
  use p, hp
  rwa [hpleft]

/-- Committed paths are along ways. -/
theorem exists_way_of_committed {p : Path} (h : p ∈ pattern.committedPaths lexicon word) :
  ∃ t b, (Ways.every lexicon).chain pattern.nodes (.start word) t b ∧
    p = (Path.start word).along t b
  := Routes.along_chain lexicon pattern.nodes .done _ p h

theorem left_le_of_committed {p : Path} (h : p ∈ pattern.committedPaths lexicon word) :
  p.left ≤ word.length
  := by
  obtain ⟨t, b, hw, rfl⟩ := exists_way_of_committed h
  apply (Ways.onward_chain _ _ _ _ _ hw).length_le

theorem isSome_longestMatch?_iff :
  (pattern.longestMatch? lexicon word).isSome ↔ pattern.committedPaths lexicon word ≠ []
  := by
  rw [longestMatch?, Option.isSome_map, Option.isSome_iff_exists]
  constructor
  · rintro ⟨p, hp⟩
    obtain ⟨⟨q, hq, -⟩, -⟩ := exists_committed_of_longestPath? hp
    apply List.ne_nil_of_mem hq
  · intro hpaths
    obtain ⟨q, hq⟩ := List.exists_mem_of_ne_nil _ hpaths
    obtain ⟨p, hp, -⟩ := exists_longestPath?_of_committed hq
    use p, hp

theorem isGreatest_length_longestMatch? {m : Match}
    (h : pattern.longestMatch? lexicon word = some m) :
  IsGreatest {l | ∃ p ∈ pattern.committedPaths lexicon word, (Match.ofPath word p).length = l}
    m.length
  := by
  obtain ⟨p, hp, rfl⟩ := Option.map_eq_some_iff.mp h
  obtain ⟨⟨q, hq, hleft⟩, hle⟩ := exists_committed_of_longestPath? hp
  constructor
  · use q, hq
    rw [Match.ofPath, Match.ofPath, hleft]
  · rintro l ⟨q, hq, rfl⟩
    apply Nat.sub_le_sub_left (hle q hq)

/-- The match takes at least as much as a way exactly if some committed path does. -/
theorem exists_length_le_iff {t : Bytes} {b : Place}
    (hw : (Ways.every lexicon).chain pattern.nodes (.start word) t b) :
  (∃ m, pattern.longestMatch? lexicon word = some m ∧ (Match.ofWay word t b).length ≤ m.length) ↔
    ∃ p ∈ pattern.committedPaths lexicon word, p.left ≤ b.rest.length
  := by
  have hb : b.rest.length ≤ word.length := (Ways.onward_chain _ _ _ _ _ hw).length_le
  constructor
  · rintro ⟨m, hm, hle⟩
    obtain ⟨⟨p, hp, hlength⟩, -⟩ := isGreatest_length_longestMatch? hm
    use p, hp
    have hleft := left_le_of_committed hp
    rw [← hlength] at hle
    dsimp only [Match.ofWay, Match.ofPath] at hle
    omega
  · rintro ⟨q, hq, hle⟩
    obtain ⟨p, hp, hpq⟩ := exists_longestPath?_of_committed hq
    use Match.ofPath word p
    rw [longestMatch?, hp]
    use rfl
    apply Nat.sub_le_sub_left (Nat.le_trans hpq hle)

theorem isSome_wholeMatch?_iff :
  (pattern.wholeMatch? lexicon word).isSome ↔
    ∃ p ∈ pattern.committedPaths lexicon word, p.rest = []
  := by
  rw [wholeMatch?, Option.isSome_filter, Option.any_eq_true]
  simp only [decide_eq_true_eq]
  constructor
  · rintro ⟨m, hm, hwhole⟩
    obtain ⟨⟨p, hp, hlength⟩, -⟩ := isGreatest_length_longestMatch? hm
    have hleft := left_le_of_committed hp
    have hzero : p.left = 0 := by
      rw [← hlength] at hwhole
      dsimp only [Match.ofPath] at hwhole
      omega
    use p, hp, List.eq_nil_of_length_eq_zero hzero
  · rintro ⟨q, hq, hrest⟩
    obtain ⟨p, hp, hle⟩ := exists_longestPath?_of_committed hq
    have hq : q.left = 0 := List.length_eq_zero_iff.mpr hrest
    have hzero : p.left = 0 := Nat.le_zero.mp (hq ▸ hle)
    use Match.ofPath word p
    rw [longestMatch?, hp]
    use rfl
    rw [Match.ofPath, hzero, Nat.sub_zero]

end Committed

/-- A pattern matches exactly if there is a committed path along it, the match takes as much as
the committed path that comes farthest, and each of these is along a way.  So there are ways that
lead farther than the match exactly if no committed path comes as far as they do, which is not
the case for sure ways.  A rule with the pattern matches the whole word exactly if a committed
path leads through all of it. -/
theorem length_le_longestMatch?_iff (pattern : Pattern) (lexicon : Lexicon) (word : Bytes) :
  let paths := pattern.committedPaths lexicon word
  (∀ t b, (Ways.every lexicon).chain pattern.nodes (.start word) t b →
    ((∃ m, pattern.longestMatch? lexicon word = some m ∧
        (Match.ofWay word t b).length ≤ m.length) ↔
      ∃ p ∈ paths, p.left ≤ b.rest.length)) ∧
  (∀ p ∈ paths, ∃ t b, (Ways.every lexicon).chain pattern.nodes (.start word) t b ∧
    p = (Path.start word).along t b) ∧
  ((pattern.longestMatch? lexicon word).isSome ↔ paths ≠ []) ∧
  (∀ m, pattern.longestMatch? lexicon word = some m →
    IsGreatest {l | ∃ p ∈ paths, (Match.ofPath word p).length = l} m.length) ∧
  (∀ {τ : Type} (r : Rule τ), r.pattern.getD .empty = pattern → r.lexicon = lexicon →
    ((r.wholeMatch? word).isSome ↔ ∃ p ∈ paths, p.rest = [])) ∧
  (∀ t b, (Ways.sure lexicon).chain pattern.nodes (.start word) t b →
    ∃ p ∈ paths, p.left ≤ b.rest.length)
  := by
  intro paths
  refine ⟨fun t b hw => exists_length_le_iff hw, fun p hp => exists_way_of_committed hp,
    isSome_longestMatch?_iff, fun m hm => isGreatest_length_longestMatch? hm, ?_, ?_⟩
  · rintro τ r rfl rfl
    apply isSome_wholeMatch?_iff
  · intro t b hw
    obtain ⟨p, hp, hle⟩ := exists_longestPath?_of_sure hw
    obtain ⟨⟨q, hq, hleft⟩, -⟩ := exists_committed_of_longestPath? hp
    use q, hq
    rwa [hleft]

/-- A way with two repetitions of which the first is not sure, as it could have been shorter. -/
theorem length_le_of_two_members :
  let r := Reading.ofSource (Utf8.encode "<v:cat,catfish>+") .empty
  let word := Utf8.encode "catfishcat"
  let paths := r.pattern.committedPaths r.lexicon word
  paths.map (fun p => word.length - p.left) = [7, 3, 10] ∧
    (∃ t b, (Ways.every r.lexicon).chain r.pattern.nodes (.start word) t b ∧ b.rest = [] ∧
      ∃ m, r.pattern.longestMatch? r.lexicon word = some m ∧
        (Match.ofWay word t b).length ≤ m.length) ∧
    (r.pattern.wholeMatch? r.lexicon word).isSome
  := by
  intro r word paths
  obtain ⟨hiff, hways, -⟩ := length_le_longestMatch?_iff r.pattern r.lexicon word
  have hlast : ∃ p ∈ paths, p.rest = [] := by decide +kernel
  obtain ⟨p, hp, hrest⟩ := hlast
  obtain ⟨t, b, hw, rfl⟩ := hways p hp
  have hle := (hiff t b hw).mpr ⟨_, hp, Nat.le_refl _⟩
  exact ⟨by decide +kernel, ⟨t, b, hw, hrest, hle⟩, by decide +kernel⟩

/-- A pattern may have a way along it and no match: the first repetition is committed to its
longest ending, after which there is no second one. -/
theorem not_length_le_of_every_way :
  ¬ ∀ (pattern : Pattern) (lexicon : Lexicon) (word t : Bytes) (b : Place),
    (Ways.every lexicon).chain pattern.nodes (.start word) t b →
      ∃ m, pattern.longestMatch? lexicon word = some m ∧
        (Match.ofWay word t b).length ≤ m.length
  := by
  intro h
  let r := Reading.ofSource (Utf8.encode "(a,ab,bb){2}") .empty
  let word := Utf8.encode "abb"
  have hnodes : r.pattern.nodes = [.group 1 [⟨[.leaf (.byte 97) .once], none⟩,
      ⟨[.leaf (.literal [97, 98] [97, 98]) .once], none⟩,
      ⟨[.leaf (.literal [98, 98] [98, 98]) .once], none⟩] (.between 2 (some 2))] := by
    decide +kernel
  have hnone : r.pattern.longestMatch? r.lexicon word = none := by decide +kernel
  -- any branch of one node that is matched once
  have hround : ∀ number branches l s a b, ⟨[.leaf l .once], none⟩ ∈ branches →
      (Ways.every r.lexicon).leaf .once l a s b →
        (Ways.every r.lexicon).branchOf number branches a s (b.capture number s) := by
    intro number branches l s a b hl hw
    rw [Ways.branchOf_iff]
    refine ⟨_, hl, ?_⟩
    rw [Ways.branch_eq]
    exact ⟨s, b, ⟨s, b, [], hw, ⟨rfl, rfl⟩, (List.append_nil s).symm⟩, rfl, rfl⟩
  have hfirst : (Ways.every r.lexicon).leaf .once (.byte 97) (.start word) [97]
      ⟨[98, 98], .none⟩ := by
    refine ⟨1, by decide, Way.Times.cons (s := [97]) (t := []) ?_ Way.Times.nil⟩
    use 97
    decide
  have hsecond : ∀ captures, (Ways.every r.lexicon).leaf .once (.literal [98, 98] [98, 98])
      ⟨[98, 98], captures⟩ [98, 98] ⟨[], captures⟩ := by
    intro captures
    rw [Ways.leaf, if_neg (List.cons_ne_nil _ _)]
    refine ⟨1, by decide, Way.Times.cons (s := [98, 98]) (t := []) ?_ Way.Times.nil⟩
    use [98, 98], by decide, rfl, rfl
  have hway : (Ways.every r.lexicon).chain r.pattern.nodes (.start word) [97, 98, 98]
      ⟨[], Captures.put (Captures.put .none 1 [97]) 1 [98, 98]⟩ := by
    rw [hnodes]
    refine ⟨[97, 98, 98], _, [], ?_, ⟨rfl, rfl⟩, rfl⟩
    apply Way.Rounds.some (k := 1) (s := [97]) (t := [98, 98]) _
      (hround 1 _ _ _ _ _ _ (hsecond (Captures.put .none 1 [97])))
    · decide
    · apply Way.Times.cons (s := [97]) (t := []) _ Way.Times.nil
      use hround 1 _ _ _ _ _ List.mem_cons_self hfirst
      trivial
    · simp
  obtain ⟨m, hm, -⟩ := h r.pattern r.lexicon word _ _ hway
  rw [hnone] at hm
  cases hm

end Pattern

/-- Every repetition of a node from a place in a word could only lead to one other place. -/
def Node.Unambiguous (lexicon : Lexicon) (word : Bytes) (n : Node) : Prop :=
  ∀ a t b, a.rest <:+ word → (Ways.every lexicon).round n a t b →
    ((Ways.every lexicon).round n).Only a b

/-- A class whose members all have the same length is not ambiguous. -/
theorem Node.unambiguous_of_members {lexicon : Lexicon} {word : Bytes} {id : ClassId}
    {reps : Reps} {n : Nat}
    (h : ∀ c ∈ lexicon.get? id, ∀ m ∈ c.members, m.text.length = n) :
  (Node.leaf (.memberOf id) reps).Unambiguous lexicon word
  := by
  have hlength : ∀ a t b, (Ways.every lexicon).member id a t b →
      a.rest.length = n + b.rest.length := by
    rintro a t b ⟨c, hc, m, hm, s, hs, hrest, -⟩
    rw [hrest, List.length_append, ← Casing.length_eq_of_same hs, h c hc m hm]
  intro a t b _ hab x u y hx hxy
  have hb := hlength a t b hab
  have hy := hlength x u y hxy
  rw [hx] at hy
  have hsuffix : y.rest <:+ a.rest := by
    rw [← hx]
    apply (Ways.every lexicon).onward_member id x u y hxy
  apply List.IsSuffix.eq_of_length
    (List.suffix_of_suffix_length_le hsuffix ((Ways.every lexicon).onward_member id a t b hab) _)
  · omega
  · omega

/-- A node with a repetition that leaves room for another one may be repeated. -/
theorem Node.repeats_of_round (n : Node) {w : Ways} {i : Nat} {a b : Place} {t : Bytes}
    (hroom : ∀ k ∈ n.reps.most, i + 2 ≤ k) (h : w.round n a t b) :
  n.Repeats
  := by
  cases n with
  | leaf content reps =>
      cases content with
      | memberOf id =>
          intro k hk
          have := hroom k hk
          omega
      | _ => exact h.elim
  | group number branches reps =>
      intro k hk
      have := hroom k hk
      omega

namespace Pattern

/-- When no repeated node of a pattern is ambiguous, all its ways are sure. -/
theorem sure_of_unambiguous {pattern : Pattern} {lexicon : Lexicon} {word t : Bytes}
    {b : Place}
    (h : ∀ n : Node, n.Occurs pattern.nodes → n.Repeats → n.Unambiguous lexicon word)
    (hw : (Ways.every lexicon).chain pattern.nodes (.start word) t b) :
  (Ways.sure lexicon).chain pattern.nodes (.start word) t b
  := by
  have hlexicon : (Ways.every lexicon).lexicon = (Ways.sure lexicon).lexicon := rfl
  apply Ways.chain_impOn (S := fun a => a.rest <:+ word) hlexicon
    (fun _ _ ha hb => hb.trans ha) _ (List.suffix_refl word) hw
  intro n hn i a t b hroom ha hround _
  left
  apply h n hn (n.repeats_of_round hroom hround) a t b ha hround

/-- When no repeated node of a pattern is ambiguous, the pattern matches exactly when there
is a way along it, and the match takes as much as the longest way. -/
theorem isGreatest_length_of_unambiguous {pattern : Pattern} {lexicon : Lexicon}
    {word : Bytes}
    (h : ∀ n : Node, n.Occurs pattern.nodes → n.Repeats → n.Unambiguous lexicon word) :
  ((pattern.longestMatch? lexicon word).isSome ↔
      ∃ t b, (Ways.every lexicon).chain pattern.nodes (.start word) t b) ∧
    ∀ m, pattern.longestMatch? lexicon word = some m →
      IsGreatest {l | ∃ t b, (Ways.every lexicon).chain pattern.nodes (.start word) t b ∧
        (Match.ofWay word t b).length = l} m.length
  := by
  have hway : ∀ m, pattern.longestMatch? lexicon word = some m →
      ∃ t b, (Ways.every lexicon).chain pattern.nodes (.start word) t b ∧
        Match.ofWay word t b = m := by
    intro m hm
    obtain ⟨p, hp, rfl⟩ := Option.map_eq_some_iff.mp hm
    obtain ⟨t, b, hw, rfl⟩ := exists_way_of_longestPath? hp
    use t, b, hw
    rw [Match.ofPath_along]
  have hlongest : ∀ t b, (Ways.every lexicon).chain pattern.nodes (.start word) t b →
      ∃ m, pattern.longestMatch? lexicon word = some m ∧
        (Match.ofWay word t b).length ≤ m.length := by
    intro t b hw
    apply exists_longestMatch?_of_sure (sure_of_unambiguous h hw)
  constructor
  · rw [Option.isSome_iff_exists]
    constructor
    · rintro ⟨m, hm⟩
      obtain ⟨t, b, hw, -⟩ := hway m hm
      use t, b
    · rintro ⟨t, b, hw⟩
      obtain ⟨m, hm, -⟩ := hlongest t b hw
      use m
  · intro m hm
    constructor
    · obtain ⟨t, b, hw, rfl⟩ := hway m hm
      use t, b
    · rintro l ⟨t, b, hw, rfl⟩
      obtain ⟨m', hm', hle⟩ := hlongest t b hw
      rw [hm] at hm'
      obtain rfl := Option.some.inj hm'
      apply hle

/-- Repetitions of one member, and then a group with branches of different lengths. -/
theorem isGreatest_length_of_class_and_group :
  let r := Reading.ofSource (Utf8.encode "<v:ab|x>*(a,ab)?") .empty
  let word := Utf8.encode "ababa"
  (∀ n : Node, n.Occurs r.pattern.nodes → n.Repeats → n.Unambiguous r.lexicon word) ∧
    ∃ m, r.pattern.longestMatch? r.lexicon word = some m ∧ m.length = 5 ∧
      IsGreatest {l | ∃ t b, (Ways.every r.lexicon).chain r.pattern.nodes (.start word) t b ∧
        (Match.ofWay word t b).length = l} m.length
  := by
  intro r word
  have h : ∀ n : Node, n.Occurs r.pattern.nodes → n.Repeats → n.Unambiguous r.lexicon word := by
    have hnodes : r.pattern.nodes = [.leaf (.memberOf ⟨0⟩) .anyNumber,
        .group 1 [⟨[.leaf (.byte 97) .once], none⟩,
          ⟨[.leaf (.literal [97, 98] [97, 98]) .once], none⟩] .optional] := by
      decide +kernel
    rw [hnodes]
    rintro n (hn | ⟨hg, hb, hn⟩) hrep
    · simp only [List.mem_cons, List.not_mem_nil, or_false] at hn
      rcases hn with rfl | rfl
      · apply Node.unambiguous_of_members (n := 2)
        decide +kernel
      · cases Nat.lt_irrefl 1 (hrep 1 rfl)
    · simp only [List.mem_cons, reduceCtorEq, List.not_mem_nil, or_false, false_or] at hg
      cases hg
      simp only [List.mem_cons, List.not_mem_nil, or_false] at hb
      rcases hb with rfl | rfl
      · obtain rfl := hn.eq_leaf
        cases hrep
      · obtain rfl := hn.eq_leaf
        cases hrep
  have hm : ∃ m, r.pattern.longestMatch? r.lexicon word = some m ∧ m.length = 5 :=
    ⟨⟨5, "xxa", Captures.put (Captures.put .none 1 "a") 0 "xxa"⟩, by decide +kernel, rfl⟩
  obtain ⟨m, hm, hlength⟩ := hm
  exact ⟨h, m, hm, hlength, (isGreatest_length_of_unambiguous h).2 m hm⟩

end Pattern

end Respell
