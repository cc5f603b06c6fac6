import Respell.Proofs.Search.Mirrored
import Respell.Proofs.Search.Parts
import Respell.Proofs.Search.Walked

/-!
# Walks follow probes

A walk and a probe can be compared wherever they go on from a position and from what is left of the
word there: if the probe returns then the walk does, with the same trail, and it brings back the
same.

That the walk returns means that all it cuts out of the word is there, and that its sums are in
bounds.  This is so because it only comes to positions between the one it began at and the end of
the word.  As each round but the last one moves on, no count of rounds is greater than the position
that they have come to.
-/

namespace Respell

/-! ### Walks that keep up with probes -/

/-- If the probe returned then so did the walk, with the same trail, and what it brought back is the
same and is between a position and the end of the word. -/
def KeepsUp (word : Bytes) (pos : Nat) (walked : Option (Walked × Trail))
    (probed : Option (Probed × Trail)) : Prop :=
  ∀ r u, probed = some (r, u) →
    ∃ r', walked = some (r', u) ∧ r'.probed word = r ∧ r'.Within word pos

/-- The walk keeps up with the probe from each position in the word. -/
def Walk.Follows (word : Bytes) (w : Walk) (k : Probe) : Prop :=
  ∀ pos ≤ word.length, ∀ t, KeepsUp word pos (w pos t) (k (word.drop pos) t)

namespace KeepsUp

variable {word : Bytes} {pos : Nat} {walked : Option (Walked × Trail)}
  {probed : Option (Probed × Trail)}

theorem of_within {r : Walked} (h : r.Within word pos) (u : Trail) :
  KeepsUp word pos (some (r, u)) (some (r.probed word, u))
  := by
  intro r' u' heq
  cases heq
  exact ⟨r, rfl, rfl, h⟩

theorem fail (u : Trail) :
  KeepsUp word pos (some (.fail, u)) (some (.fail, u))
  := of_within Walked.within_fail u

theorem mono (h : KeepsUp word pos walked probed) {start : Nat} (hle : start ≤ pos) :
  KeepsUp word start walked probed
  := by
  intro r u hr
  obtain ⟨r', hr', hprobed, hwithin⟩ := h r u hr
  exact ⟨r', hr', hprobed, hwithin.mono hle⟩

/-- What is done with the two results keeps up when it does so with whatever they are. -/
theorem bind (h : KeepsUp word pos walked probed) {start : Nat}
    {f : Walked × Trail → Option (Walked × Trail)} {g : Probed × Trail → Option (Probed × Trail)}
    (hnext : ∀ r u, r.Within word pos → KeepsUp word start (f (r, u)) (g (r.probed word, u))) :
  KeepsUp word start (walked.bind f) (probed.bind g)
  := by
  intro r u hr
  obtain ⟨⟨r₀, u₀⟩, hprobed, hg⟩ := Option.bind_eq_some_iff.mp hr
  obtain ⟨r₁, hwalked, rfl, hwithin⟩ := h r₀ u₀ hprobed
  rw [hwalked, Option.bind_some]
  exact hnext r₁ u₀ hwithin r u hg

theorem map (h : KeepsUp word pos walked probed) {start : Nat}
    {f : Walked × Trail → Walked × Trail} {g : Probed × Trail → Probed × Trail}
    (hnext : ∀ r u, r.Within word pos →
      KeepsUp word start (some (f (r, u))) (some (g (r.probed word, u)))) :
  KeepsUp word start (walked.map f) (probed.map g)
  := by
  rw [Option.map_eq_bind, Option.map_eq_bind]
  exact h.bind hnext

end KeepsUp

namespace Walk

variable {word : Bytes} {w : Walk} {k : Probe}

/-! ### Ways to walk -/

theorem follows_done :
  done.Follows word .done
  := by
  intro pos hpos t
  apply KeepsUp.of_within (r := ⟨some ⟨pos, t⟩, []⟩)
  constructor
  · intro a ha
    cases ha
    exact ⟨Nat.le_refl pos, hpos⟩
  · exact fun e he => absurd he List.not_mem_nil

theorem Follows.provided (h : w.Follows word k) (mayStop : Bool) :
  (w.provided mayStop).Follows word (k.provided mayStop)
  := by
  intro pos hpos t
  rw [Walk.provided, Probe.provided]
  split
  · apply h pos hpos
  · apply KeepsUp.fail

theorem Follows.giving (h : w.Follows word k) (text : Bytes) :
  (w.giving text).Follows word (k.giving text)
  := by
  intro pos hpos t
  apply (h pos hpos (t.give text)).map
  intro r u hwithin
  apply KeepsUp.of_within hwithin

section Explore

variable (lexicon : Lexicon) {pos : Nat}

theorem keepsUp_explore {α β : Type} {walk : α → Trail → Option (Walked × Trail)}
    {probe : β → Trail → Option (Probed × Trail)} {as : List α} {bs : List β}
    (h : List.Forall₂ (fun a b => ∀ t, KeepsUp word pos (walk a t) (probe b t)) as bs)
    {best : Walked} (hbest : best.Within word pos) (t : Trail) :
  KeepsUp word pos (explore word walk as best t)
    (Probe.explore (Search.untilWordEnd lexicon).enough probe bs (best.probed word) t)
  := by
  induction h generalizing best t with
  | nil => apply KeepsUp.of_within hbest
  | @cons a b as bs hab _ ih =>
      rw [explore, Probe.explore]
      apply (hab t).bind
      intro r u hr
      have hboth := hbest.orElse hr
      dsimp only
      rw [← Walked.probed_orElse hbest hr, Walked.satisfies_probed hboth]
      split
      · apply KeepsUp.of_within hboth
      · apply ih hboth

/-- A walk down from the greatest number of repetitions follows the probe that takes the same
repetitions.  With each of them it gets to a position in the word that is not in front of where it
began. -/
theorem keepsUp_downFromMost (hw : w.Follows word k) {step? : Path → Option Path} {reps : Reps}
    {available : Nat} {leap? : Nat → Option (Bytes × Nat)} {place : Nat → Path}
    (hpaths : Path.iterates step? (reps.most.getD (word.drop pos).length) (.start (word.drop pos)) =
      (List.range (available + 1)).map place)
    (hleap : ∀ n ≤ available, ∃ next ≤ word.length, pos ≤ next ∧
      leap? n = some ((place n).output, next) ∧ (place n).rest = word.drop next) (t : Trail) :
  KeepsUp word pos (downFromMost word available reps.least leap? w t)
    ((Search.untilWordEnd lexicon).probeDownFromMost step? reps k (word.drop pos) t)
  := by
  have hdrop : ((List.range (available + 1)).map place).drop reps.least =
      (List.range' reps.least (available + 1 - reps.least)).map place := by
    rw [← List.map_drop, List.range_eq_range', List.drop_range', Nat.zero_add, Nat.mul_one]
  rw [Search.probeDownFromMost, hpaths, hdrop, downFromMost]
  split
  · next hless =>
    have hnone : available + 1 - reps.least = 0 := by omega
    rw [hnone]
    apply KeepsUp.fail
  · rw [← List.map_reverse]
    apply keepsUp_explore lexicon _ Walked.within_fail
    rw [List.forall₂_map_right_iff, List.forall₂_same]
    intro n hn t
    have hle : n ≤ available := by
      have hrange := List.mem_range'_1.mp (List.mem_reverse.mp hn)
      omega
    obtain ⟨next, hnext, hahead, hsome, hrest⟩ := hleap n hle
    rw [hsome, Option.bind_some, hrest]
    exact (hw.giving _ next hnext t).mono hahead

end Explore

/-! ### Rounds -/

section Rounds

variable (lexicon : Lexicon) {round : Bool → Walk → Walk} {steps : List (Bool → Probe → Probe)}
  (hround : ∀ mayStop,
    (round mayStop w).Follows word
      (Probe.round (Search.untilWordEnd lexicon).enough steps mayStop k))
  (hw : w.Follows word k) (reps : Reps)
include hround hw

/-- Each round but the last one moves on, so the count stays behind the position, and the budget
is not used up before the end of the word is reached. -/
theorem keepsUp_rounds {start budget count pos : Nat} {best : Walked} (hpos : pos ≤ word.length)
    (hstart : start ≤ pos) (hbest : best.Within word start) (hbudget : word.length - pos < budget)
    (hcount : count ≤ pos) (t : Trail) :
  KeepsUp word start (rounds word round reps w budget count best pos t)
    (Probe.rounds (Search.untilWordEnd lexicon).enough steps reps k count (best.probed word)
      (word.drop pos) t)
  := by
  induction budget generalizing count pos best t with
  | zero => exact absurd hbudget (Nat.not_lt_zero _)
  | succ budget ih =>
      rw [rounds, Probe.rounds]
      split
      · have hnext : count + 1 ≤ word.length + 1 := by omega
        rw [within?_of_le hnext, Option.bind_some]
        apply (hround _ pos hpos t).bind
        intro r u hr
        have houtside := (hr.mono hstart).outside
        have hboth := hbest.orRather houtside
        dsimp only
        rw [← Walked.probed_outside, ← Walked.probed_orRather hbest houtside,
          Walked.satisfies_probed hboth, Walked.exit?_probed]
        generalize best.orRather r.outside = best at hboth ⊢
        split
        · apply KeepsUp.of_within hboth
        · cases hturn : r.turn? with
          | none => apply KeepsUp.of_within hboth
          | some e =>
              have he := hr.turn? e hturn
              have hstop := he.stop_le
              have hlength : (e.exit word).rest.length = word.length - e.stop := List.length_drop
              rw [Option.map_some]
              dsimp only
              rw [hlength, List.length_drop]
              rcases Nat.eq_or_lt_of_le he.ahead with heq | hlt
              · have hsame : ¬ word.length - e.stop < word.length - pos := by omega
                rw [if_pos heq.symm, if_neg hsame]
                split
                · apply KeepsUp.of_within hboth
                · obtain ⟨stop, text, captures, reach⟩ := e
                  obtain rfl : pos = stop := heq
                  apply ((hw pos hpos _).mono hstart).map
                  intro r' v hr'
                  dsimp only
                  rw [← Walked.probed_orRather hboth hr']
                  apply KeepsUp.of_within (hboth.orRather hr')
              · have hmoved : word.length - e.stop < word.length - pos := by omega
                rw [if_neg (Nat.ne_of_gt hlt), if_pos hlt, if_pos hmoved]
                apply ih hstop (Nat.le_trans hstart he.ahead) hboth
                · omega
                · omega
      · apply KeepsUp.of_within hbest

theorem follows_repeated :
  (repeated word round reps w).Follows word
    (Probe.repeated (Search.untilWordEnd lexicon).enough steps reps k)
  := by
  intro pos hpos t
  apply (hw.provided (decide (reps.least = 0)) pos hpos t).bind
  intro best u hbest
  have hall := keepsUp_rounds lexicon hround hw reps hpos (Nat.le_refl pos) hbest
    (Nat.lt_succ_self _) (Nat.zero_le pos) u
  apply hall.map
  intro r v hr
  apply KeepsUp.of_within hr

end Rounds

/-- The end of a branch, with a mark within the output or not. -/
theorem Follows.close (hw : w.Follows word k) (b : Entered) :
  (w.close b).Follows word (k.close b)
  := by
  intro pos hpos t
  rw [Walk.close, Probe.close]
  split
  · apply (hw.provided b.mayStop pos hpos _).map
    intro r u hr
    dsimp only
    rw [← Walked.probed_turning]
    apply KeepsUp.of_within (hr.turning (Nat.le_refl pos) hpos _ _)
  · intro r u h
    cases h

theorem follows_groupRound (lexicon : Lexicon) {branches : List (Bool → Walk → Walk)}
    {steps : List (Bool → Probe → Probe)} (mayStop : Bool)
    (h : List.Forall₂ (fun branch step => (branch mayStop w).Follows word (step mayStop k))
      branches steps) :
  (groupRound word branches mayStop w).Follows word
    (Probe.round (Search.untilWordEnd lexicon).enough steps mayStop k)
  := by
  intro pos hpos t
  apply keepsUp_explore lexicon _ Walked.within_fail
  exact h.imp fun branch step hstep => hstep pos hpos

theorem keepsUp_member {c : NamedClass} (hw : w.Follows word k) (mayStop : Bool) {pos : Nat}
    (hpos : pos ≤ word.length) {x : Member × Nat}
    (hx : x ∈ c.leadingFrom (word.drop pos) 0) (t : Trail) :
  KeepsUp word pos (member word c mayStop w pos x t)
    (Probe.member c.casing x.1 mayStop k (word.drop pos) t)
  := by
  obtain ⟨m, i⟩ := x
  obtain ⟨-, hm, hlead⟩ := NamedClass.mem_leadingFrom_iff.mp hx
  have hle := Casing.length_le_of_leads hlead
  rw [List.length_drop] at hle
  have hnext : pos + m.text.length ≤ word.length := by omega
  have hahead : pos ≤ pos + m.text.length := Nat.le_add_right _ _
  rw [member, Probe.member, if_pos hlead]
  dsimp only
  rw [hm, Option.bind_some, within?_of_le (Nat.le_succ_of_le hnext), Option.bind_some,
    List.drop_drop]
  apply ((hw.giving m.replacement).provided mayStop _ hnext t).map
  intro r u hr
  dsimp only
  rw [← Walked.probed_turning]
  apply KeepsUp.of_within ((hr.mono hahead).turning hahead hnext _ _)

/-- The members that do not lead the rest of the word are passed over. -/
theorem follows_classRound (lexicon : Lexicon) (hw : w.Follows word k) (id : ClassId)
    (mayStop : Bool) :
  (classRound lexicon word id mayStop w).Follows word
    (Probe.round (Search.untilWordEnd lexicon).enough
      ((Search.untilWordEnd lexicon).memberProbes id) mayStop k)
  := by
  intro pos hpos t
  have hlexicon : (Search.untilWordEnd lexicon).lexicon = lexicon := rfl
  rw [classRound, Search.memberProbes, hlexicon]
  cases lexicon.get? id with
  | none => apply KeepsUp.fail
  | some c =>
      dsimp only
      rw [from?_of_le hpos, Option.bind_some, c.foundFrom_eq_leadingFrom, Probe.round_members]
      apply keepsUp_explore lexicon _ Walked.within_fail
      rw [List.forall₂_same]
      exact fun x hx => keepsUp_member hw mayStop hpos hx

/-! ### Repeated bytes and texts -/

theorem follows_bytes (lexicon : Lexicon) (hw : w.Follows word k) (accepts : UInt8 → Bool)
    (reps : Reps) :
  (bytes word accepts reps w).Follows word
    ((Search.untilWordEnd lexicon).probeDownFromMost (Path.copyByte? accepts) reps k)
  := by
  intro pos hpos t
  rw [bytes, from?_of_le hpos, Option.bind_some]
  generalize hrest : word.drop pos = rest
  have hlength : rest.length = word.length - pos := by rw [← hrest, List.length_drop]
  rw [upTo?_of_le (Nat.min_le_right _ _), Option.bind_some, ← List.take_eq_take_min]
  have hpaths := Path.iterates_eq_map (reps.most.getD rest.length)
    (Path.copyByte?_copied accepts rest)
  subst hrest
  apply keepsUp_downFromMost lexicon hw hpaths
  intro n hn
  have hle : n ≤ (word.drop pos).length :=
    calc n
      _ ≤ _ := hn
      _ ≤ _ := (List.takeWhile_prefix accepts).length_le
      _ ≤ _ := List.length_take_le' _ _
  have hnext : pos + n ≤ word.length := by omega
  refine ⟨pos + n, hnext, Nat.le_add_right pos n, ?_, ?_⟩
  · rw [upTo?_of_le hle, Option.bind_some, within?_of_le (Nat.le_succ_of_le hnext),
      Option.map_some]
    exact congrArg (fun text => some (text, _)) (List.reverse_reverse _).symm
  · exact List.drop_drop

theorem follows_literal (lexicon : Lexicon) (hw : w.Follows word k) {text : Bytes}
    (htext : ¬ text.isEmpty = true) (replacement : Bytes) (reps : Reps) :
  (literal word text replacement reps w).Follows word
    ((Search.untilWordEnd lexicon).probeDownFromMost (Path.replaceText? text replacement) reps k)
  := by
  have hsize : 0 < text.length := by
    rw [List.length_pos_iff, ne_eq, ← List.isEmpty_iff]
    exact htext
  intro pos hpos t
  rw [literal, if_neg htext, from?_of_le hpos, Option.bind_some, chunks?,
    if_neg (Nat.ne_of_gt hsize), Option.bind_some]
  have hpaths := Path.iterates_eq_map (reps.most.getD (word.drop pos).length)
    (Path.replaceText?_replaced hsize replacement (word.drop pos))
  have hmost : reps.most.elim (chunks text.length (word.drop pos))
      (chunks text.length (word.drop pos)).take =
        (chunks text.length (word.drop pos)).take (reps.most.getD (word.drop pos).length) := by
    cases reps.most with
    | none => exact (List.take_of_length_le (length_chunks_le hsize _)).symm
    | some most => rfl
  dsimp only
  rw [hmost]
  have hstart : Path.replaced text.length replacement (word.drop pos) 0 =
      .start (word.drop pos) := by
    rw [Path.replaced, Nat.zero_mul]
    rfl
  rw [hstart] at hpaths
  apply keepsUp_downFromMost lexicon hw hpaths
  intro n hn
  have hle : n ≤ (chunks text.length (word.drop pos)).length :=
    calc n
      _ ≤ _ := hn
      _ ≤ _ := (List.takeWhile_prefix _).length_le
      _ ≤ _ := List.length_take_le' _ _
  have hrest := mul_le_of_le_length_chunks hsize hle
  rw [List.length_drop] at hrest
  have hnext : pos + n * text.length ≤ word.length := by omega
  refine ⟨pos + n * text.length, hnext, Nat.le_add_right pos _, ?_, ?_⟩
  · rw [within?_of_le (Nat.le_succ_of_le hnext), Option.map_some]
    exact congrArg (fun text => some (text, _)) (List.reverse_reverse _).symm
  · exact List.drop_drop

end Walk

/-! ### Walks along a pattern -/

/-- Two ways to make something of what follows go together when they do so with whatever
follows. -/
def Followed (word : Bytes) (walk : Walk → Walk) (probe : Probe → Probe) : Prop :=
  ∀ w k, w.Follows word k → (walk w).Follows word (probe k)

section Pattern

variable (lexicon : Lexicon) (word : Bytes)

theorem followed_leaf (reps : Reps) (content : Leaf) :
  Followed word (walkLeaf lexicon word reps content)
    ((Search.untilWordEnd lexicon).probeLeaf reps content)
  := by
  intro w k hw
  cases content with
  | byte b => exact Walk.follows_bytes lexicon hw _ reps
  | set members => exact Walk.follows_bytes lexicon hw _ reps
  | literal text replacement =>
      rw [walkLeaf, Search.probeLeaf]
      by_cases htext : text.isEmpty = true
      · intro pos hpos t
        rw [Walk.literal, if_pos htext, if_pos htext]
        exact hw.giving replacement pos hpos t
      · rw [if_neg htext]
        exact Walk.follows_literal lexicon hw htext replacement reps
  | memberOf id =>
      apply Walk.follows_repeated lexicon _ hw reps
      exact Walk.follows_classRound lexicon hw id
  | wordEnd =>
      intro pos hpos t
      have hend : decide (pos = word.length) = (word.drop pos).isEmpty := by
        rw [Bool.eq_iff_iff, decide_eq_true_eq, List.isEmpty_iff, List.drop_eq_nil_iff]
        omega
      dsimp only [walkLeaf, Search.probeLeaf]
      rw [hend]
      split
      · exact hw pos hpos t
      · apply KeepsUp.fail
  | remainder =>
      intro pos hpos t
      dsimp only [walkLeaf, Search.probeLeaf]
      have hall := hw.giving (word.drop pos) word.length (Nat.le_refl _) t
      rw [List.drop_length] at hall
      rw [Walk.from?_of_le hpos, Option.bind_some]
      apply (hall.mono hpos).bind
      intro all u hwithin
      have hsame : (all.probed word).found.isNone = all.found.isNone := Option.isNone_map
      dsimp only
      rw [hsame]
      split
      · apply (hw pos hpos u).map
        intro r v hr
        dsimp only
        rw [← Walked.probed_orElse hwithin hr]
        apply KeepsUp.of_within (hwithin.orElse hr)
      · apply KeepsUp.of_within hwithin

theorem followed_chain_of_nodes {nodes : List Node}
    (h : ∀ n ∈ nodes,
      Followed word (walkNode lexicon word n) ((Search.untilWordEnd lexicon).probeNode n)) :
  Followed word (walkChain lexicon word nodes) ((Search.untilWordEnd lexicon).probeChain nodes)
  := by
  induction nodes with
  | nil => exact fun w k hw => hw
  | cons n ns ih =>
      intro w k hw
      apply h n List.mem_cons_self
      exact ih (fun m hm => h m (List.mem_cons_of_mem n hm)) w k hw

theorem followed_node (n : Node) :
  Followed word (walkNode lexicon word n) ((Search.untilWordEnd lexicon).probeNode n)
  := by
  induction n using Node.ind with
  | leaf content reps => apply followed_leaf
  | group number branches reps ih =>
      intro w k hw
      apply Walk.follows_repeated lexicon _ hw reps
      intro mayStop
      apply Walk.follows_groupRound
      rw [branchWalks_eq_map, Search.branchProbes_eq_map]
      apply forall₂_map_map
      intro b hb pos hpos t
      rw [branchWalk_eq, Search.branchProbe_eq]
      have hclose := hw.close ⟨number, b.replacement, t.output.length, mayStop⟩
      exact followed_chain_of_nodes lexicon word (ih b hb) _ _ hclose pos hpos t

/-- The walk along all that remains keeps up with the probe. -/
theorem Next.follows_walk (next : Next) :
  (next.walk lexicon word).Follows word (next.probe (.untilWordEnd lexicon))
  := by
  induction next with
  | done => apply Walk.follows_done
  | seq nodes next ih =>
      exact followed_chain_of_nodes lexicon word (fun n _ => followed_node lexicon word n) _ _ ih
  | close b next ih => exact ih.close b

end Pattern

end Respell
