import Respell.Proofs.Search.Outcome
import Respell.Proofs.Way
import Respell.Reading

/-!
# Searches follow ways

Whatever the search of a pattern brings back, a complete path or an ending of a round, was
brought back by the continuation at the end of a way.  In particular the path that is
found at the end of the whole pattern is the result of a way along it.
-/

namespace Respell

namespace Path

/-- The place in the word where a path stands. -/
def place (p : Path) : Place := ⟨p.rest, p.captures⟩

/-- The path after a way to the place `b` that renders `t`. -/
def along (p : Path) (t : Bytes) (b : Place) : Path :=
  ⟨b.rest, t.reverse ++ p.given, b.captures⟩

@[simp]
theorem place_along (p : Path) (t : Bytes) (b : Place) :
  (p.along t b).place = b
  := rfl

@[simp]
theorem rest_along (p : Path) (t : Bytes) (b : Place) :
  (p.along t b).rest = b.rest
  := rfl

theorem along_along (p : Path) (s t : Bytes) (b c : Place) :
  (p.along s b).along t c = p.along (s ++ t) c
  := by
  simp [along]

/-- At the end of a branch that renders `s`, its replacement or else `s` is what the group
renders and captures. -/
theorem leaveBranch_along (p : Path) (s : Bytes) (b : Place) (number : Nat)
    (replacement : Option Bytes) :
  (p.along s b).leaveBranch p.given number replacement
    = p.along (replacement.getD s) (b.capture number (replacement.getD s))
  := by
  cases replacement with
  | none => simp [leaveBranch, along, Place.capture]
  | some r => simp [leaveBranch, along, Place.capture]

/-! ### Steps that take some of the word -/

/-- A step goes from each path to the end of the way from there, if there is one. -/
def Takes (step? : Path → Option Path) (W : Way) : Prop :=
  ∀ p q, step? p = some q ↔ ∃ t b, W p.place t b ∧ q = p.along t b

theorem takes_copyByte (accepts : UInt8 → Bool) :
  Takes (copyByte? accepts) (Way.copyByte accepts)
  := by
  rintro ⟨rest, given, captures⟩ q
  cases rest with
  | nil =>
      simp only [copyByte?, reduceCtorEq, false_iff]
      rintro ⟨t, b, ⟨c, -, h, -⟩, -⟩
      cases h
  | cons c rest =>
      simp only [copyByte?]
      constructor
      · intro h
        split at h
        · next hc =>
          cases h
          use [c], ⟨rest, captures⟩
          exact ⟨⟨c, hc, rfl, rfl, rfl⟩, rfl⟩
        · cases h
      · rintro ⟨t, ⟨rest', captures'⟩, ⟨c', hc, h, rfl, rfl⟩, rfl⟩
        obtain ⟨rfl, rfl⟩ := List.cons.inj h
        rw [if_pos hc]
        rfl

theorem takes_replaceText (text replacement : Bytes) :
  Takes (replaceText? text replacement) (Way.replaceText .folded text replacement)
  := by
  rintro ⟨rest, given, captures⟩ q
  simp only [replaceText?]
  constructor
  · intro h
    split at h
    · next hlead =>
      cases h
      use replacement, ⟨rest.drop text.length, captures⟩
      refine ⟨⟨rest.take text.length, hlead, ?_, rfl, rfl⟩, rfl⟩
      apply (List.take_append_drop _ _).symm
    · cases h
  · rintro ⟨t, ⟨rest', captures'⟩, ⟨s, hs, h, rfl, rfl⟩, rfl⟩
    obtain rfl : rest = s ++ rest' := h
    rw [if_pos (Casing.leads_append_of_same hs rest')]
    simp [advance, along, Casing.length_eq_of_same hs]

theorem getElem?_iterates_zero (step? : Path → Option Path) (n : Nat) (p : Path) :
  (iterates step? n p)[0]? = some p
  := by
  cases n with
  | zero => rfl
  | succ n =>
      rw [iterates]
      split
      · rfl
      · rfl

/-- What is reached after `k` iterations of a step is reached by `k` ways one after the
other. -/
theorem times_of_getElem?_iterates {step? : Path → Option Path} {W : Way}
    (hW : Takes step? W) {n k : Nat} {p q : Path} (h : (iterates step? n p)[k]? = some q)
    (i : Nat) :
  k ≤ n ∧ ∃ t b, Way.Times (fun _ => W) i (i + k) p.place t b ∧ q = p.along t b
  := by
  induction n generalizing p k i with
  | zero =>
      rw [iterates, List.getElem?_singleton] at h
      obtain ⟨rfl, h⟩ := Option.ite_none_right_eq_some.mp h
      obtain rfl := Option.some.inj h
      use Nat.le_refl 0, [], p.place, Way.Times.nil
      rfl
  | succ n ih =>
      cases k with
      | zero =>
          rw [getElem?_iterates_zero] at h
          obtain rfl := Option.some.inj h
          use Nat.zero_le _, [], p.place, Way.Times.nil
          rfl
      | succ k =>
          rw [iterates] at h
          split at h
          · cases h
          · next p' hp' =>
            obtain ⟨s, b, hs, rfl⟩ := (hW p p').mp hp'
            obtain ⟨hk, t, c, ht, rfl⟩ := ih h (i + 1)
            rw [Nat.add_right_comm] at ht
            use Nat.succ_le_succ hk, s ++ t, c, Way.Times.cons hs ht
            apply along_along

end Path

open Outcome

/-- Whatever a step brings back was brought back by the continuation at the end of one of
the ways: conditions that hold there hold of the outcome of the step. -/
def Step.Sound (step : Step) (W : Way) : Prop :=
  ∀ (k : Continuation) (p : Path) (P : Path → Prop) (Q : Nat → Ending → Prop),
    (∀ t b, W p.place t b → (k (p.along t b)).Within P Q) → (step k p).Within P Q

/-! ### Rounds -/

section Rounds

variable {enough : Path → Bool} {steps : List Step} {reps : Reps} {k : Continuation}
  {W : Way} {P : Path → Prop} {Q : Nat → Ending → Prop}

theorem within_endRound {mayStop : Bool} {p : Path} {R : Ending → Prop}
    (hk : mayStop = true → (k p).Within P Q)
    (hR : ∀ n, (mayStop = false → n = p.left) → R ⟨p, n⟩) :
  (endRound mayStop k p).Within P (innermost R Q)
  := by
  have ho : (if mayStop then k p else .fail).Within P Q := by
    split
    · next h => apply hk h
    · apply within_fail
  constructor
  · apply ho.found
  · intro i e he
    cases i with
    | zero =>
        obtain rfl := Option.some.inj he
        apply hR
        rintro rfl
        rfl
    | succ i => apply ho.endings i e he

/-- A round ends where one repetition leads to.  When it may not stop there, its ending
leaves what is unread there. -/
theorem within_round (hs : ∀ step ∈ steps, step.Sound W) {mayStop : Bool} {p : Path}
    (hk : ∀ t b, W p.place t b → mayStop = true → (k (p.along t b)).Within P Q) :
  (round enough steps mayStop k p).Within P (innermost (fun e => ∃ t b, W p.place t b ∧
    e.path = p.along t b ∧ (mayStop = false → e.left = e.path.left)) Q)
  := by
  apply within_explore within_fail
  intro step hstep
  apply hs step hstep
  intro t b hw
  apply within_endRound (hk t b hw)
  intro n hn
  use t, b, hw, rfl, hn

/-- The path `p` is reached from `p₀` by `count` repetitions. -/
def Reached (W : Way) (p₀ : Path) (count : Nat) (p : Path) : Prop :=
  ∃ t b, Way.Times (Way.followed W fun _ _ _ => True) 0 count p₀.place t b ∧ p = p₀.along t b

theorem Reached.more {p₀ p : Path} {count : Nat} (h : Reached W p₀ count p) {t : Bytes}
    {b : Place} (hw : W p.place t b) :
  Reached W p₀ (count + 1) (p.along t b)
  := by
  obtain ⟨s, a, hs, rfl⟩ := h
  use s ++ t, b, hs.snoc ⟨hw, trivial⟩
  apply Path.along_along

variable {p₀ : Path}
  (hk : ∀ t b, Way.Rounds W (fun _ _ _ => True) reps p₀.place t b →
    (k (p₀.along t b)).Within P Q)
include hk

/-- The round after the first `count` ones is followed by the continuation only after as
many rounds as the bounds allow. -/
theorem within_round_of_reached (hs : ∀ step ∈ steps, step.Sound W) {count : Nat} {p : Path}
    (hmore : reps.allowsMore count = true) (reached : Reached W p₀ count p) :
  (round enough steps (decide (reps.least ≤ count + 1)) k p).Within P
    (innermost (fun e => ∃ t b, W p.place t b ∧ e.path = p.along t b ∧
      (decide (reps.least ≤ count + 1) = false → e.left = e.path.left)) Q)
  := by
  apply within_round hs
  intro t b hw hstop
  obtain ⟨s, a, hs, rfl⟩ := reached
  rw [Path.along_along]
  apply hk
  apply Way.Rounds.some hs hw
  use of_decide_eq_true hstop
  apply (reps.allowsMore_iff count).mp hmore

/-- After a round in which nothing is taken the continuation may follow. -/
theorem within_of_idle (hW : W.Onward) {count : Nat} {p : Path}
    (hmore : reps.allowsMore count = true) (reached : Reached W p₀ count p) {t : Bytes}
    {b : Place} (hw : W p.place t b) (hidle : p.left ≤ (p.along t b).left) :
  (k (p.along t b)).Within P Q
  := by
  have hrest : b.rest = p.rest := (hW _ _ _ hw).eq_of_length_le hidle
  obtain ⟨s, a, hs, rfl⟩ := reached
  rw [Path.along_along]
  apply hk
  apply Way.Rounds.idle hs ⟨hw, trivial⟩ hrest
  apply (reps.allowsMore_iff count).mp hmore

/-- The rounds after the first `count` bring back what the continuation brings back after
all rounds, when the first ones have led to `p` and the best outcome so far is as
desired. -/
theorem within_rounds (hW : W.Onward) (hs : ∀ step ∈ steps, step.Sound W) {count : Nat}
    {best : Outcome} {p : Path} (reached : Reached W p₀ count p) (hbest : best.Within P Q) :
  (rounds enough steps reps k count best p).Within P Q
  := by
  fun_induction rounds enough steps reps k count best p with
  | case1 count best p hmore mayStop o best' hsat =>
      apply hbest.orRather (within_round_of_reached hk hs hmore reached).outside
  | case2 count best p hmore mayStop o best' hsat hnone =>
      apply hbest.orRather (within_round_of_reached hk hs hmore reached).outside
  | case3 count best p hmore mayStop o best' hsat e he hlt ih =>
      have hround : o.Within P (innermost _ Q) := within_round_of_reached hk hs hmore reached
      rw [ending?_eq] at he
      obtain ⟨t, b, hw, hpath, -⟩ := hround.endings 0 e he
      apply ih
      · rw [hpath]
        apply reached.more hw
      · apply hbest.orRather hround.outside
  | case4 count best p hmore mayStop o best' hsat e he hlt hstop =>
      apply hbest.orRather (within_round_of_reached hk hs hmore reached).outside
  | case5 count best p hmore mayStop o best' hsat e he hlt hstop =>
      have hround : o.Within P (innermost _ Q) := within_round_of_reached hk hs hmore reached
      rw [ending?_eq] at he
      obtain ⟨t, b, hw, hpath, -⟩ := hround.endings 0 e he
      apply (hbest.orRather hround.outside).orRather
      rw [hpath] at hlt ⊢
      apply within_of_idle hk hW hmore reached hw (Nat.le_of_not_lt hlt)
  | case6 count best p hmore => apply hbest

end Rounds

/-! ### Steps of nodes and chains -/

namespace Step

theorem Sound.repeated {enough : Path → Bool} {steps : List Step} {W : Way}
    (hW : W.Onward) (hs : ∀ step ∈ steps, step.Sound W) (reps : Reps) :
  Step.Sound (Respell.repeated enough steps reps) (Way.Rounds W (fun _ _ _ => True) reps)
  := by
  intro k p P Q hk
  apply within_rounds hk hW hs
  · use [], p.place, Way.Times.nil
    rfl
  · split
    · next hleast => apply hk [] p.place (Way.Rounds.none hleast)
    · apply within_fail

theorem Sound.comp {step step' : Step} {V W : Way} (hV : step.Sound V) (hW : step'.Sound W) :
  Step.Sound (fun k => step (step' k)) (Way.comp V W)
  := by
  intro k p P Q hk
  apply hV
  intro s b hs
  apply hW
  intro t c ht
  rw [Path.place_along] at ht
  rw [Path.along_along]
  apply hk (s ++ t) c ⟨s, b, t, hs, ht, rfl⟩

theorem Sound.enclose {step : Step} {W : Way} (hW : step.Sound W) (number : Nat)
    (replacement : Option Bytes) :
  Step.Sound (fun k p => step (fun q => k (q.leaveBranch p.given number replacement)) p)
    (W.enclose number replacement)
  := by
  intro k p P Q hk
  apply hW
  intro s b hs
  rw [Path.leaveBranch_along]
  apply hk _ _ ⟨s, b, hs, rfl, rfl⟩

theorem Sound.imp {step : Step} {V W : Way} (h : ∀ a t b, V a t b → W a t b)
    (hV : step.Sound V) :
  step.Sound W
  := by
  intro k p P Q hk
  apply hV
  intro t b hv
  apply hk t b (h _ _ _ hv)

end Step

namespace Search

variable (s : Search)

theorem sound_downFromMost {step? : Path → Option Path} {W : Way}
    (hW : Path.Takes step? W) (reps : Reps) :
  (s.downFromMost step? reps).Sound (W.repeated reps)
  := by
  intro k p P Q hk
  apply within_explore within_fail
  intro q hq
  obtain ⟨i, hi⟩ := List.mem_iff_getElem?.mp (List.mem_reverse.mp hq)
  rw [List.getElem?_drop] at hi
  obtain ⟨hn, t, b, ht, rfl⟩ := Path.times_of_getElem?_iterates hW hi 0
  apply hk
  use reps.least + i
  constructor
  · use Nat.le_add_right _ _
    intro m hm
    rwa [Option.mem_def.mp hm] at hn
  · rwa [Nat.zero_add] at ht

theorem sound_memberStep (casing : Casing) (m : Member) :
  (memberStep casing m).Sound (Way.replaceText casing m.text m.replacement)
  := by
  intro k p P Q hk
  rw [memberStep]
  split
  · next hlead =>
    apply hk m.replacement ⟨p.rest.drop m.text.length, p.captures⟩
    use p.rest.take m.text.length, hlead
    use (List.take_append_drop _ _).symm, rfl
  · apply within_fail

theorem sound_classSteps (id : ClassId) :
  ∀ step ∈ s.classSteps id, step.Sound ((Ways.every s.lexicon).member id)
  := by
  intro step hstep
  rw [classSteps] at hstep
  split at hstep
  · cases hstep
  · next c hc =>
    obtain ⟨m, hm, rfl⟩ := List.mem_map.mp hstep
    apply (sound_memberStep c.casing m).imp
    intro a t b h
    use c, hc, m, hm

theorem sound_leaf (reps : Reps) (content : Leaf) :
  (s.leaf reps content).Sound ((Ways.every s.lexicon).leaf reps content)
  := by
  cases content with
  | byte b => apply s.sound_downFromMost (Path.takes_copyByte _)
  | set members => apply s.sound_downFromMost (Path.takes_copyByte _)
  | literal text replacement =>
      simp only [leaf, replaceText, Ways.leaf, List.isEmpty_iff]
      split
      · intro k p P Q hk
        apply hk replacement p.place ⟨rfl, rfl⟩
      · apply s.sound_downFromMost (Path.takes_replaceText text replacement)
  | memberOf id =>
      apply Step.Sound.repeated (Ways.onward_member _ id) (s.sound_classSteps id)
  | wordEnd =>
      intro k p P Q hk
      simp only [leaf, Bool.or_eq_true, List.isEmpty_iff, decide_eq_true_eq]
      split
      · next h => apply hk [] p.place ⟨h, rfl, rfl⟩
      · apply within_fail
  | remainder =>
      intro k p P Q hk
      have hall := hk p.rest ⟨[], p.captures⟩ (Or.inl ⟨rfl, rfl⟩)
      have hadvance : p.advance p.left p.rest = p.along p.rest ⟨[], p.captures⟩ := by
        simp [Path.advance, Path.along, Path.left]
      simp only [leaf, hadvance, Bool.and_eq_true, decide_eq_true_eq]
      split
      · next h => apply hall.orElse (hk [] p.place (Or.inr ⟨h.2, rfl, rfl⟩))
      · apply hall

theorem sound_chain_of_nodes {nodes : List Node}
    (h : ∀ n ∈ nodes, (s.node n).Sound ((Ways.every s.lexicon).node n)) :
  (s.chain nodes).Sound ((Ways.every s.lexicon).chain nodes)
  := by
  induction nodes with
  | nil =>
      intro k p P Q hk
      apply hk [] p.place ⟨rfl, rfl⟩
  | cons n ns ih =>
      apply (h n List.mem_cons_self).comp
      apply ih (fun m hm => h m (List.mem_cons_of_mem n hm))

theorem sound_branchSteps_of_chains {number : Nat} {branches : List (Branch Node)}
    (h : ∀ b ∈ branches, (s.chain b.nodes).Sound ((Ways.every s.lexicon).chain b.nodes)) :
  ∀ step ∈ s.branchSteps number branches,
    step.Sound ((Ways.every s.lexicon).branchOf number branches)
  := by
  intro step hstep
  rw [branchSteps_eq_map] at hstep
  obtain ⟨b, hb, rfl⟩ := List.mem_map.mp hstep
  rw [branchStep_eq]
  apply ((h b hb).enclose number b.replacement).imp
  intro a t c hw
  rw [Ways.branchOf_iff]
  use b, hb
  rwa [Ways.branch_eq]

theorem sound_node (n : Node) :
  (s.node n).Sound ((Ways.every s.lexicon).node n)
  := by
  induction n using Node.ind with
  | leaf content reps => apply sound_leaf
  | group number branches reps ih =>
      apply Step.Sound.repeated (Ways.onward_branchOf _ fun b _ => Ways.onward_chain _ b.nodes)
      apply s.sound_branchSteps_of_chains
      intro b hb
      apply s.sound_chain_of_nodes (ih b hb)

theorem sound_chain (nodes : List Node) :
  (s.chain nodes).Sound ((Ways.every s.lexicon).chain nodes)
  := s.sound_chain_of_nodes (fun n _ => s.sound_node n)

end Search

/-! ### The match of a pattern is made by a way -/

theorem Match.ofPath_along (word t : Bytes) (b : Place) :
  Match.ofPath word ((Path.start word).along t b) = Match.ofWay word t b
  := by
  simp [ofPath, ofWay, Path.output, Path.along, Path.start, Path.left]

namespace Pattern

theorem exists_way_of_longestPath? {pattern : Pattern} {lexicon : Lexicon} {word : Bytes}
    {p : Path} (h : pattern.longestPath? lexicon word = some p) :
  ∃ t b, (Ways.every lexicon).chain pattern.nodes (.start word) t b ∧
    p = (Path.start word).along t b
  := by
  have hs := (Search.untilWordEnd lexicon).sound_chain pattern.nodes Outcome.done
    (Path.start word)
    (fun p => ∃ t b, (Ways.every lexicon).chain pattern.nodes (.start word) t b ∧
      p = (Path.start word).along t b)
    (fun _ _ => True)
  refine (hs ?_).found p h
  intro t b hw
  constructor
  · intro q hq
    obtain rfl := Option.some.inj hq
    use t, b, hw
  · intro i e he
    trivial

/-- The match of a pattern with the front of a word is made by one of the ways of the
pattern, which leads past as many bytes as the match takes. -/
theorem exists_way_of_longestMatch? {pattern : Pattern} {lexicon : Lexicon} {word : Bytes}
    {m : Match} (h : pattern.longestMatch? lexicon word = some m) :
  ∃ t b, (Ways.every lexicon).chain pattern.nodes (.start word) t b ∧
    m = Match.ofWay word t b ∧ b.rest = word.drop m.length
  := by
  obtain ⟨p, hp, rfl⟩ := Option.map_eq_some_iff.mp h
  obtain ⟨t, b, hw, rfl⟩ := exists_way_of_longestPath? hp
  rw [Match.ofPath_along]
  use t, b, hw, rfl
  obtain ⟨taken, htaken⟩ := Ways.onward_chain _ _ _ _ _ hw
  have htaken : taken ++ b.rest = word := htaken
  simp [Match.ofWay, ← htaken]

/-- A way through branches and members with replacements, in rounds. -/
theorem exists_way_of_rounds :
  let r := Reading.ofSource (Utf8.encode "(a|x,<v:bc|y,b|z>)+") .empty
  let m : Match := ⟨4, "xyz", Captures.put (Captures.put .none 1 "z") 0 "xyz"⟩
  let word := Utf8.encode "abcb"
  r.pattern.longestMatch? r.lexicon word = some m ∧
    ∃ t b, (Ways.every r.lexicon).chain r.pattern.nodes (.start word) t b ∧
      m = Match.ofWay word t b ∧ b.rest = word.drop m.length
  := by
  intro r m word
  have h : r.pattern.longestMatch? r.lexicon word = some m := by decide +kernel
  exact ⟨h, exists_way_of_longestMatch? h⟩

end Pattern

end Respell
