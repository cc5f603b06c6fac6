import Respell.Proofs.Search.Soundness

/-!
# Searches find sure ways

A search does not follow all ways: after each round of a repetition it goes on from one
ending only.  It finds every way whose repetitions leave it no choice, which are those
that could only end where they do, or, as long as more of them are needed, end as far as
any could.
-/

namespace Respell

open Outcome

namespace Way

/-- A way from `a`, whatever is captured there, can only lead to where `b` is. -/
def Only (W : Way) (a b : Place) : Prop :=
  ∀ x t y, x.rest = a.rest → W x t y → y.rest = b.rest

/-- A way from `a`, whatever is captured there, does not lead farther than to `b`. -/
def Farthest (W : Way) (a b : Place) : Prop :=
  ∀ x t y, x.rest = a.rest → W x t y → b.rest.length ≤ y.rest.length

/-- A repetition with number `n` from `a` to `b` leaves no choice: it could only lead to
`b`, or it leads as far as possible and more repetitions are needed. -/
def Sure (W : Way) (reps : Reps) (n : Nat) (a b : Place) : Prop :=
  W.Only a b ∨ n + 1 < reps.least ∧ W.Farthest a b

end Way

/-- The ways on which a repetition is followed by another one only if it left no choice. -/
def Ways.sure (lexicon : Lexicon) : Ways :=
  ⟨lexicon, fun n => ((every lexicon).round n).Sure n.reps⟩

/-- Sure ways are ways. -/
theorem Ways.node_of_sure {lexicon : Lexicon} (n : Node) {a b : Place} {t : Bytes}
    (h : (sure lexicon).node n a t b) :
  (every lexicon).node n a t b
  := by
  have hlexicon : (sure lexicon).lexicon = (every lexicon).lexicon := rfl
  apply node_impOn (S := fun _ => True) hlexicon (fun _ _ _ _ => trivial) n _ a t b trivial h
  exact fun _ _ _ _ _ _ _ _ _ _ => trivial

/-- A continuation that finds only paths that go on from where it starts. -/
def Continuation.Forward (k : Continuation) : Prop :=
  ∀ p, ∀ q ∈ (k p).found, q.left ≤ p.left

theorem forward_done :
  Continuation.Forward Outcome.done
  := by
  intro p q hq
  obtain rfl := Option.some.inj hq
  apply Nat.le_refl

/-- A step finds the ways of `W`: it meets every goal that the continuation meets wherever
the end of the way is reached. -/
def Step.Complete (step : Step) (W : Way) : Prop :=
  ∀ (k : Continuation) (p : Path) (g : Goal) (a : Place) (t : Bytes) (b : Place),
    k.Forward → a.rest = p.rest → W a t b → (∀ q, q.rest = b.rest → (k q).Meets g) →
      (step k p).Meets g

theorem Step.Sound.forward {step : Step} {W : Way} (hs : step.Sound W) (hW : W.Onward)
    {k : Continuation} (hk : k.Forward) :
  (step k).Forward
  := by
  intro p
  refine (hs k p (fun q => q.left ≤ p.left) (fun _ _ => True) ?_).found
  intro t b hw
  constructor
  · intro q hq
    apply Nat.le_trans (hk _ q hq)
    apply (hW _ _ _ hw).length_le
  · intro i e he
    trivial

/-! ### Rounds -/

section Rounds

variable {k : Continuation} {g : Goal}

theorem forward_endRound (hk : k.Forward) (mayStop : Bool) :
  (endRound mayStop k).Forward
  := by
  intro p q hq
  cases mayStop with
  | true => apply hk p q hq
  | false => cases hq

theorem meets_endRound {p : Path} (h : (k p).Meets g) :
  (endRound true k p).Meets g.inside
  := by
  cases g with
  | path n => apply h
  | ending i n => apply h

/-- The end of a round is an ending of it, and leaves no more than is unread there. -/
theorem meets_endRound_ending (hk : k.Forward) (mayStop : Bool) (p : Path) :
  (endRound mayStop k p).Meets (.ending 0 p.left)
  := by
  left
  refine ⟨_, rfl, ?_⟩
  dsimp only
  cases ho : (if mayStop then k p else .fail).found with
  | none => apply Nat.le_refl
  | some q => apply forward_endRound hk mayStop p q ho

variable {enough : Path → Bool} {steps : List Step} {reps : Reps} {V W : Way}

theorem meets_rounds_of_best {count : Nat} {best : Outcome} {p : Path} (h : best.Meets g) :
  (rounds enough steps reps k count best p).Meets g
  := by
  fun_induction rounds enough steps reps k count best p with
  | case1 => apply h.orRather_left
  | case2 => apply h.orRather_left
  | case3 count best p hmore mayStop o best' hsat e he hlt ih =>
      apply ih (h.orRather_left _)
  | case4 => apply h.orRather_left
  | case5 => apply (h.orRather_left _).orRather_left
  | case6 => apply h

/-- What a round brings back, the rounds from there on bring back. -/
theorem meets_rounds_of_round {count : Nat} {best : Outcome} {p : Path}
    (hmore : reps.allowsMore count = true)
    (h : (round enough steps (decide (reps.least ≤ count + 1)) k p).Meets g.inside) :
  (rounds enough steps reps k count best p).Meets g
  := by
  have hbest := Meets.orRather_right best h.outside
  rw [rounds, if_pos hmore]
  dsimp only
  split
  · apply hbest
  · split
    · apply hbest
    · split
      · apply meets_rounds_of_best hbest
      · split
        · apply hbest
        · apply hbest.orRather_left

/-- When a round is known to have an ending in front of `r`, the rounds from there on meet a
goal if those after it do.  When nothing is taken on the way to `r`, the continuation must
meet it, and also the round itself in case it may stop. -/
theorem meets_rounds_of_ending (henough : ∀ p, enough p = true → p.left = 0) {count : Nat}
    {best : Outcome} {p : Path} {r : Bytes} (hmore : reps.allowsMore count = true)
    (hround : (round enough steps (decide (reps.least ≤ count + 1)) k p).Full ∨
      ∃ e ∈ (round enough steps (decide (reps.least ≤ count + 1)) k p).ending?,
        e.path.rest = r)
    (hnext : r.length < p.left → ∀ best q, q.rest = r →
      (rounds enough steps reps k (count + 1) best q).Meets g)
    (hidle : p.left ≤ r.length → (∀ q, q.rest = r → (k q).Meets g) ∧
      (reps.least ≤ count + 1 → (round enough steps true k p).Meets g.inside)) :
  (rounds enough steps reps k count best p).Meets g
  := by
  rcases hround with hfull | ⟨e, he, hr⟩
  · apply meets_rounds_of_round hmore (hfull.meets g.inside)
  · rw [rounds, if_pos hmore]
    dsimp only
    rw [Option.mem_def.mp he]
    split
    · next hsat => apply (full_of_satisfies henough hsat).meets
    · dsimp only
      split
      · next hlt =>
        rw [Path.left, hr] at hlt
        apply hnext hlt _ _ hr
      · next hlt =>
        rw [Nat.not_lt, Path.left, Path.left, hr] at hlt
        obtain ⟨hk, hstop⟩ := hidle hlt
        split
        · next hmay =>
          have hleast := of_decide_eq_true hmay
          rw [decide_eq_true hleast]
          apply Meets.orRather_right _ (hstop hleast).outside
        · apply Meets.orRather_right _ (hk e.path hr)

/-- When a round leaves no choice but to end at `c`, an ending that comes as far as `c` lies
there. -/
theorem ending_of_sure (hs : ∀ step ∈ steps, step.Sound V) (hV : V.Onward) {count : Nat}
    {p : Path} {a c : Place} (ha : a.rest = p.rest) (hc : c.rest <:+ p.rest)
    (hsure : V.Sure reps count a c)
    (h : (round enough steps (decide (reps.least ≤ count + 1)) k p).Meets
      (.ending 0 c.rest.length)) :
  (round enough steps (decide (reps.least ≤ count + 1)) k p).Full ∨
    ∃ e ∈ (round enough steps (decide (reps.least ≤ count + 1)) k p).ending?,
      e.path.rest = c.rest
  := by
  rcases h with ⟨e, he, hle⟩ | h
  · right
    have hround : (round enough steps (decide (reps.least ≤ count + 1)) k p).Within
        (fun _ => True) (innermost _ fun _ _ => True) :=
      within_round hs (fun _ _ _ _ => ⟨fun _ _ => trivial, fun _ _ _ => trivial⟩)
    obtain ⟨t, y, hy, hpath, hleft⟩ := hround.endings 0 e he
    rw [← ending?_eq] at he
    use e, he
    rw [hpath, Path.rest_along]
    rcases hsure with honly | ⟨hleast, hfar⟩
    · apply honly _ _ _ ha.symm hy
    · rw [hleft (decide_eq_false (Nat.not_le.mpr hleast)), hpath] at hle
      apply (List.suffix_of_suffix_length_le (hV _ _ _ hy) hc hle).eq_of_length_le
      apply hfar _ _ _ ha.symm hy
  · left
    apply h

/-- No way from in front of `r` leads anywhere else. -/
def Stuck (V : Way) (r : Bytes) : Prop := ∀ a t b, a.rest = r → V a t b → b.rest = r

theorem stuck_of_sure (hV : V.Onward) {count : Nat} {a b : Place}
    (hsure : V.Sure reps count a b) (h : b.rest = a.rest) :
  Stuck V a.rest
  := by
  intro x t y hx hw
  rcases hsure with honly | ⟨-, hfar⟩
  · rw [← h]
    apply honly x t y hx hw
  · rw [← hx]
    apply (hV x t y hw).eq_of_length_le
    rw [hx, ← h]
    apply hfar x t y hx hw

variable (hW : ∀ a t b, W a t b → ∃ step ∈ steps, ∃ U : Way, step.Complete U ∧ U a t b)
  (henough : ∀ p, enough p = true → p.left = 0) (hk : k.Forward)
include hW henough hk

theorem meets_round {mayStop : Bool} {p : Path} {a b : Place} {t : Bytes} (hw : W a t b)
    (ha : a.rest = p.rest) (h : ∀ q, q.rest = b.rest → (endRound mayStop k q).Meets g) :
  (round enough steps mayStop k p).Meets g
  := by
  obtain ⟨step, hstep, U, hU, hu⟩ := hW a t b hw
  apply meets_explore henough .fail hstep
  apply hU _ p g a t b (forward_endRound hk mayStop) ha hu h

variable (hs : ∀ step ∈ steps, step.Sound V) (hV : V.Onward) (hWV : ∀ a t b, W a t b → V a t b)
include hs hV hWV

/-- A sure repetition from `a` to `b` brings the search to `b`, or ends it there. -/
theorem meets_rounds_of_sure {count : Nat} {a b : Place} {t : Bytes}
    (hmore : reps.allowsMore count = true) (hw : Way.followed W (V.Sure reps) count a t b)
    (hnext : b.rest.length < a.rest.length → ∀ best q, q.rest = b.rest →
      (rounds enough steps reps k (count + 1) best q).Meets g)
    (hidle : Stuck V b.rest → ∀ q, q.rest = b.rest → (k q).Meets g)
    {best : Outcome} {p : Path} (ha : a.rest = p.rest) :
  (rounds enough steps reps k count best p).Meets g
  := by
  have hb : b.rest <:+ p.rest := by
    rw [← ha]
    apply hV _ _ _ (hWV _ _ _ hw.1)
  rw [ha] at hnext
  apply meets_rounds_of_ending henough hmore _ hnext
  · intro hle
    have hba : b.rest = a.rest := by
      rw [ha]
      apply hb.eq_of_length_le hle
    have hstuck : Stuck V b.rest := by
      rw [hba]
      apply stuck_of_sure hV hw.2 hba
    use hidle hstuck
    intro hleast
    apply meets_round hW henough hk hw.1 ha
    intro q hq
    apply meets_endRound (hidle hstuck q hq)
  · apply ending_of_sure hs hV ha hb hw.2
    apply meets_round hW henough hk hw.1 ha
    intro q hq
    rw [← hq]
    apply meets_endRound_ending hk

omit hW henough hk hs hV hWV in
theorem Stuck.times {r : Bytes} (h : Stuck V r) {f : Nat → Place → Place → Prop} {i j : Nat}
    {a b : Place} {t : Bytes} (times : Way.Times (Way.followed V f) i j a t b)
    (ha : a.rest = r) :
  b.rest = r
  := by
  induction times with
  | nil => apply ha
  | cons first _ ih => apply ih (h _ _ _ ha first.1)

/-- Sure repetitions bring the search from `a` to `b`, or end it there when no way leads
anywhere else. -/
theorem meets_rounds_of_times {i j : Nat} {a b : Place} {t : Bytes}
    (times : Way.Times (Way.followed W (V.Sure reps)) i j a t b)
    (hmost : ∀ m ∈ reps.most, j + 1 ≤ m)
    (hlast : ∀ best q, q.rest = b.rest → (rounds enough steps reps k j best q).Meets g)
    (hstuck : Stuck V b.rest → ∀ q, q.rest = b.rest → (k q).Meets g)
    {best : Outcome} {p : Path} (ha : a.rest = p.rest) :
  (rounds enough steps reps k i best p).Meets g
  := by
  induction times generalizing best p with
  | nil => apply hlast _ _ ha.symm
  | @cons i j a c b s t first more ih =>
      have hmore : reps.allowsMore i = true := by
        apply (reps.allowsMore_iff i).mpr
        intro m hm
        apply Nat.le_trans more.le (Nat.le_of_succ_le (hmost m hm))
      apply meets_rounds_of_sure hW henough hk hs hV hWV hmore first _ _ ha
      · intro _ best q hq
        apply ih hmost hlast hstuck hq.symm
      · intro hc q hq
        have hb : b.rest = c.rest :=
          hc.times (more.imp fun n a t b h => ⟨hWV a t b h.1, h.2⟩) rfl
        rw [hb] at hstuck
        apply hstuck hc q hq

end Rounds

/-! ### Steps of nodes and chains -/

namespace Step

theorem Complete.repeated {enough : Path → Bool} {steps : List Step} {V W : Way}
    (henough : ∀ p, enough p = true → p.left = 0) (hs : ∀ step ∈ steps, step.Sound V)
    (hW : ∀ a t b, W a t b → ∃ step ∈ steps, ∃ U : Way, step.Complete U ∧ U a t b)
    (hV : V.Onward) (hWV : ∀ a t b, W a t b → V a t b) (reps : Reps) :
  Step.Complete (Respell.repeated enough steps reps) (Way.Rounds W (V.Sure reps) reps)
  := by
  intro k p g a t b hk ha hw h
  rw [Respell.repeated]
  cases hw with
  | none hleast =>
      rw [if_pos hleast]
      apply meets_rounds_of_best (h p ha.symm)
  | @some j _ c _ _ t before last bounds =>
      have hmore := (reps.allowsMore_iff j).mpr bounds.2
      apply meets_rounds_of_times hW henough hk hs hV hWV before bounds.2 _ _ ha
      · intro best q hq
        apply meets_rounds_of_round hmore
        rw [decide_eq_true bounds.1]
        apply meets_round hW henough hk last hq.symm
        intro q hq
        apply meets_endRound (h q hq)
      · intro hc q hq
        have hb : b.rest = c.rest := hc c t b rfl (hWV _ _ _ last)
        apply h q (hq.trans hb.symm)
  | @idle j _ c _ _ _ before last nothing most =>
      have hmore := (reps.allowsMore_iff j).mpr most
      apply meets_rounds_of_times hW henough hk hs hV hWV before most _ _ ha
      · intro best q hq
        apply meets_rounds_of_sure hW henough hk hs hV hWV hmore last _ _ hq.symm
        · intro hlt
          rw [nothing] at hlt
          cases Nat.lt_irrefl _ hlt
        · intro _ q hq
          apply h q hq
      · intro _ q hq
        apply h q (hq.trans nothing.symm)

theorem Complete.comp {step step' : Step} {V W W' : Way} (hV : step.Complete V)
    (hW : step'.Complete W) (hs : step'.Sound W') (hW' : W'.Onward) :
  Step.Complete (fun k => step (step' k)) (Way.comp V W)
  := by
  rintro k p g a u c hk ha ⟨s, b, t, hv, hw, -⟩ h
  apply hV (step' k) p g a s b (hs.forward hW' hk) ha hv
  intro q hq
  apply hW k q g b t c hk hq.symm hw h

theorem Complete.enclose {step : Step} {W : Way} (hW : step.Complete W) (number : Nat)
    (replacement : Option Bytes) :
  Step.Complete (fun k p => step (fun q => k (q.leaveBranch p.given number replacement)) p)
    (W.enclose number replacement)
  := by
  rintro k p g a t c hk ha ⟨s, b, hw, -, rfl⟩ h
  apply hW _ p g a s b _ ha hw
  · intro q hq
    apply h (q.leaveBranch p.given number replacement) hq
  · intro q
    apply hk

end Step

/-! ### Steps that take some of the word -/

namespace Way

/-- What is captured makes no difference to a way and is kept on it. -/
def Plain (W : Way) : Prop :=
  ∀ a t b x, W a t b → x.rest = a.rest → W x t ⟨b.rest, x.captures⟩

theorem plain_copyByte (accepts : UInt8 → Bool) :
  (copyByte accepts).Plain
  := by
  rintro a t b x ⟨c, hc, hrest, -, ht⟩ hx
  use c, hc, hx.trans hrest, rfl

theorem plain_replaceText (casing : Casing) (text replacement : Bytes) :
  (replaceText casing text replacement).Plain
  := by
  rintro a t b x ⟨s, hs, hrest, -, ht⟩ hx
  use s, hs, hx.trans hrest, rfl

end Way

/-- Ways one after the other that take some of the word are found by iterating a step. -/
theorem Path.exists_getElem?_iterates {step? : Path → Option Path} {W : Way}
    (hW : Takes step? W) (hplain : W.Plain) {i j : Nat} {a b : Place} {t : Bytes}
    (times : Way.Times (fun _ => W) i j a t b) {n : Nat} (hn : j - i ≤ n) {p : Path}
    (ha : a.rest = p.rest) :
  ∃ q, (iterates step? n p)[j - i]? = some q ∧ q.rest = b.rest
  := by
  induction times generalizing n p with
  | nil =>
      use p
      rw [Nat.sub_self]
      exact ⟨getElem?_iterates_zero step? n p, ha.symm⟩
  | @cons i j a c b s t first more ih =>
      have hij : j - i = j - (i + 1) + 1 := by
        have := more.le
        omega
      obtain ⟨n, rfl⟩ : ∃ m, n = m + 1 := Nat.exists_eq_add_of_le' (by omega)
      have hstep : step? p = some (p.along s ⟨c.rest, p.captures⟩) :=
        (hW p _).mpr ⟨s, _, hplain a s c p.place first ha.symm, rfl⟩
      obtain ⟨q, hq, hrest⟩ := ih (n := n) (by omega) (p := p.along s ⟨c.rest, p.captures⟩) rfl
      use q
      rw [iterates, hstep, hij]
      exact ⟨hq, hrest⟩

namespace Search

variable (lexicon : Lexicon)

theorem left_of_enough (p : Path) (h : (untilWordEnd lexicon).enough p = true) :
  p.left = 0
  := by
  rw [Path.left, List.isEmpty_iff.mp h, List.length_nil]

theorem complete_downFromMost {step? : Path → Option Path} {W : Way}
    (hW : Path.Takes step? W) (hplain : W.Plain)
    (hless : ∀ a t b, W a t b → b.rest.length < a.rest.length) (reps : Reps) :
  ((untilWordEnd lexicon).downFromMost step? reps).Complete (W.repeated reps)
  := by
  rintro k p g a t b hk ha ⟨n, hn, times⟩ h
  have hle := Way.length_le_of_times hless times
  rw [ha] at hle
  have hmost : n - 0 ≤ reps.most.getD p.left := by
    cases hm : reps.most with
    | none =>
        rw [Option.getD_none, Path.left]
        omega
    | some m => apply hn.2 m hm
  obtain ⟨q, hq, hrest⟩ := Path.exists_getElem?_iterates hW hplain times hmost ha
  apply meets_explore (left_of_enough lexicon) .fail _ (h q hrest)
  rw [List.mem_reverse]
  apply List.mem_iff_getElem?.mpr
  use n - reps.least
  rw [List.getElem?_drop, ← hq]
  congr 1
  have := hn.1
  omega

theorem complete_memberStep (casing : Casing) (m : Member) :
  (memberStep casing m).Complete (Way.replaceText casing m.text m.replacement)
  := by
  rintro k p g a t b hk ha ⟨s, hs, hrest, -, -⟩ h
  rw [ha] at hrest
  rw [memberStep, hrest, if_pos (Casing.leads_append_of_same hs b.rest)]
  apply h
  rw [Path.advance, hrest, Casing.length_eq_of_same hs, List.drop_left]

theorem exists_step_of_member (id : ClassId) (a : Place) (t : Bytes) (b : Place)
    (h : (Ways.sure lexicon).member id a t b) :
  ∃ step ∈ (untilWordEnd lexicon).classSteps id, ∃ U : Way, step.Complete U ∧ U a t b
  := by
  obtain ⟨c, hc, m, hm, hw⟩ := h
  use memberStep c.casing m
  have hget : (untilWordEnd lexicon).lexicon.get? id = some c := hc
  rw [classSteps, hget]
  use List.mem_map_of_mem hm, Way.replaceText c.casing m.text m.replacement
  use complete_memberStep c.casing m

theorem complete_copyBytes (accepts : UInt8 → Bool) (reps : Reps) :
  ((untilWordEnd lexicon).copyBytes accepts reps).Complete
    (Way.repeated (Way.copyByte accepts) reps)
  := complete_downFromMost lexicon (Path.takes_copyByte accepts) (Way.plain_copyByte accepts)
      (Way.length_lt_of_copyByte accepts) reps

theorem complete_leaf (reps : Reps) (content : Leaf) :
  ((untilWordEnd lexicon).leaf reps content).Complete ((Ways.sure lexicon).leaf reps content)
  := by
  cases content with
  | byte b => apply complete_copyBytes
  | set members => apply complete_copyBytes
  | literal text replacement =>
      simp only [leaf, replaceText, Ways.leaf, List.isEmpty_iff]
      split
      · rintro k p g a t b hk ha ⟨-, rfl⟩ h
        apply h (p.advance 0 replacement) ha.symm
      · next htext =>
        apply complete_downFromMost lexicon (Path.takes_replaceText text replacement)
          (Way.plain_replaceText .folded text replacement) (Way.length_lt_of_replaceText htext)
  | memberOf id =>
      apply Step.Complete.repeated (left_of_enough lexicon)
        ((untilWordEnd lexicon).sound_classSteps id) (exists_step_of_member lexicon id)
        (Ways.onward_member _ id)
      exact fun _ _ _ h => h
  | wordEnd =>
      rintro k p g a t b hk ha ⟨hend, -, rfl⟩ h
      rw [ha] at hend
      simp only [leaf, Bool.or_eq_true, List.isEmpty_iff, decide_eq_true_eq, if_pos hend]
      apply h p ha.symm
  | remainder =>
      rintro k p g a t b hk ha hw h
      have hrest : (p.advance p.left p.rest).rest = [] := List.drop_length
      simp only [leaf, Bool.and_eq_true, decide_eq_true_eq, Option.isNone_iff_eq_none]
      rcases hw with ⟨-, rfl⟩ | ⟨hleast, -, rfl⟩
      · have hall := h (p.advance p.left p.rest) hrest
        split
        · apply hall.orElse_left
        · apply hall
      · split
        · apply Meets.orElse_right _ (h p ha.symm)
        · next hfound =>
          -- a path after all of the word is as good as any
          obtain ⟨q, hq⟩ := Option.ne_none_iff_exists'.mp fun hnone => hfound ⟨hnone, hleast⟩
          apply Full.meets
          use q, hq
          have hle := hk _ q hq
          rwa [Path.left, Path.left, hrest] at hle

theorem complete_chain_of_nodes {nodes : List Node}
    (h : ∀ n ∈ nodes, ((untilWordEnd lexicon).node n).Complete ((Ways.sure lexicon).node n)) :
  ((untilWordEnd lexicon).chain nodes).Complete ((Ways.sure lexicon).chain nodes)
  := by
  induction nodes with
  | nil =>
      rintro k p g a t b hk ha ⟨-, rfl⟩ hg
      apply hg p ha.symm
  | cons n ns ih =>
      apply Step.Complete.comp (h n List.mem_cons_self) _
        ((untilWordEnd lexicon).sound_chain ns) (Ways.onward_chain _ ns)
      apply ih (fun m hm => h m (List.mem_cons_of_mem n hm))

theorem complete_node (n : Node) :
  ((untilWordEnd lexicon).node n).Complete ((Ways.sure lexicon).node n)
  := by
  induction n using Node.ind with
  | leaf content reps => apply complete_leaf
  | group number branches reps ih =>
      apply Step.Complete.repeated (left_of_enough lexicon)
        ((untilWordEnd lexicon).sound_branchSteps_of_chains fun b _ => sound_chain _ b.nodes)
        _ (Ways.onward_branchOf _ fun b _ => Ways.onward_chain _ b.nodes)
      · intro a t b h
        apply Ways.branchOf_impOn_of_nodes (S := fun _ => True) (fun _ _ _ _ => trivial)
          (fun b _ n _ a t c _ => Ways.node_of_sure n) trivial h
      · intro a t c h
        obtain ⟨b, hb, h⟩ := (Ways.branchOf_iff _ _ _ _ _ _).mp h
        rw [Ways.branch_eq] at h
        use (untilWordEnd lexicon).branchStep number b
        rw [branchSteps_eq_map, branchStep_eq]
        refine ⟨?_, _, Step.Complete.enclose ?_ number b.replacement, h⟩
        · rw [← branchStep_eq]
          apply List.mem_map_of_mem hb
        · apply complete_chain_of_nodes lexicon (ih b hb)

theorem complete_chain (nodes : List Node) :
  ((untilWordEnd lexicon).chain nodes).Complete ((Ways.sure lexicon).chain nodes)
  := complete_chain_of_nodes lexicon (fun n _ => complete_node lexicon n)

end Search

end Respell
