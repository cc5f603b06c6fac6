import Respell.Proofs.Commitment
import Respell.Proofs.Search.Equal

/-!
# Searches try the committed paths

A search brings back what is found behind the committed paths, joined in their order, unless it
has found a path through the whole word and stopped.  In both cases it comes as far as the
committed path that comes farthest.
-/

namespace Respell

open Outcome

/-! ### Outcomes that are even -/

namespace Outcome

/-- Two outcomes come equally far and have the same endings, or both have a path through the
whole word. -/
def Even (a b : Outcome) : Prop :=
  (a.found.map Path.left = b.found.map Path.left ∧ ∀ i, a.endingAt? i = b.endingAt? i) ∨
    a.Full ∧ b.Full

/-- What some outcomes have together. -/
def joined (os : List Outcome) : Outcome := os.foldr orElse fail

variable {a b c a' b' : Outcome}

theorem map_left_of_full (h : a.Full) :
  a.found.map Path.left = some 0
  := by
  obtain ⟨p, hp, hleft⟩ := h
  rw [hp, Option.map_some, Nat.le_zero.mp hleft]

theorem full_of_map_left (h : a.found.map Path.left = some 0) :
  a.Full
  := by
  obtain ⟨p, hp, hleft⟩ := Option.map_eq_some_iff.mp h
  use p, hp, Nat.le_of_eq hleft

theorem Even.refl (a : Outcome) :
  a.Even a
  := .inl ⟨rfl, fun _ => rfl⟩

theorem Even.found (h : a.Even b) :
  a.found.map Path.left = b.found.map Path.left
  := by
  obtain h | ⟨ha, hb⟩ := h
  · exact h.1
  · rw [map_left_of_full ha, map_left_of_full hb]

theorem Even.full (h : a.Even b) (ha : a.Full) :
  b.Full
  := by
  apply full_of_map_left
  rw [← h.found, map_left_of_full ha]

theorem Even.symm (h : a.Even b) :
  b.Even a
  := h.imp (fun h => ⟨h.1.symm, fun i => (h.2 i).symm⟩) And.symm

theorem Even.trans (h : a.Even b) (h' : b.Even c) :
  a.Even c
  := by
  obtain h | ⟨ha, hb⟩ := h
  · obtain h' | ⟨hb, hc⟩ := h'
    · exact .inl ⟨h.1.trans h'.1, fun i => (h.2 i).trans (h'.2 i)⟩
    · exact .inr ⟨(Even.symm (.inl h)).full hb, hc⟩
  · exact .inr ⟨ha, h'.full hb⟩

theorem satisfies_of_full {enough : Path → Bool} (henough : ∀ p, enough p = true ↔ p.left = 0)
    (h : a.Full) :
  a.satisfies enough = true
  := by
  obtain ⟨p, hp, hleft⟩ := h
  rw [satisfies, hp, Option.any_some, henough]
  apply Nat.le_zero.mp hleft

theorem Full.orElse_left (h : a.Full) (b : Outcome) :
  (a.orElse b).Full
  := Meets.orElse_left (g := .path 0) h b

theorem Full.orElse_right (a : Outcome) (h : b.Full) :
  (a.orElse b).Full
  := Meets.orElse_right (g := .path 0) a h

theorem closest_id_comm (m n : Option Nat) :
  closest id m n = closest id n m
  := by
  cases m with
  | none => rw [closest_none_right, closest]
  | some m =>
      cases n with
      | none => rfl
      | some n =>
          simp only [closest, id_eq]
          split
          · next hlt => rw [if_neg (Nat.lt_asymm hlt)]
          · next hlt =>
            split
            · rfl
            · next hlt' => rw [Nat.le_antisymm (Nat.le_of_not_lt hlt) (Nat.le_of_not_lt hlt')]

theorem map_left_closest (p q : Option Path) :
  (closest Path.left p q).map Path.left = closest id (p.map Path.left) (q.map Path.left)
  := (@closest_map Nat id Path Path.left p q).symm

theorem map_left_orElse (a b : Outcome) :
  (a.orElse b).found.map Path.left =
    closest id (a.found.map Path.left) (b.found.map Path.left)
  := map_left_closest a.found b.found

theorem Even.orElse (ha : a.Even a') (hb : b.Even b') :
  (a.orElse b).Even (a'.orElse b')
  := by
  obtain ha | ⟨ha, ha'⟩ := ha
  · obtain hb | ⟨hb, hb'⟩ := hb
    · left
      constructor
      · rw [map_left_orElse, map_left_orElse, ha.1, hb.1]
      · intro i
        rw [endingAt?_orElse, endingAt?_orElse, ha.2, hb.2]
    · exact .inr ⟨hb.orElse_right a, hb'.orElse_right a'⟩
  · exact .inr ⟨ha.orElse_left b, ha'.orElse_left b'⟩

/-- Which one of two equally good paths is kept makes no difference. -/
theorem even_orRather (a b : Outcome) :
  (a.orRather b).Even (a.orElse b)
  := by
  left
  constructor
  · rw [orRather, orElse, map_left_closest, map_left_closest, closest_id_comm]
  · intro i
    rw [endingAt?_orRather, endingAt?_orElse]

theorem even_of_full (ha : a.Full) (hb : b.Full) :
  a.Even b
  := .inr ⟨ha, hb⟩

theorem even_orElse_assoc (a b c : Outcome) :
  ((a.orElse b).orElse c).Even (a.orElse (b.orElse c))
  := by
  left
  constructor
  · rw [map_left_orElse, map_left_orElse, map_left_orElse, map_left_orElse, closest_assoc]
  · intro i
    rw [endingAt?_orElse, endingAt?_orElse, endingAt?_orElse, endingAt?_orElse, closest_assoc]

theorem even_outside_orElse (a b : Outcome) :
  (a.orElse b).outside.Even (a.outside.orElse b.outside)
  := by
  left
  constructor
  · rfl
  · intro i
    rw [endingAt?_outside, endingAt?_orElse, endingAt?_orElse, endingAt?_outside,
      endingAt?_outside]

theorem Even.outside (h : a.Even b) :
  a.outside.Even b.outside
  := by
  refine h.imp_left fun h => ⟨h.1, fun i => ?_⟩
  rw [endingAt?_outside, endingAt?_outside, h.2]

/-! ### Outcomes that are joined -/

theorem even_joined_append (os os' : List Outcome) :
  (joined (os ++ os')).Even ((joined os).orElse (joined os'))
  := by
  induction os with
  | nil => apply Even.refl
  | cons o os ih => exact ((Even.refl o).orElse ih).trans (even_orElse_assoc o _ _).symm

theorem even_joined_singleton (k : Continuation) (p : Path) :
  (k p).Even (joined ([p].map k))
  := by
  have hone : joined ([p].map k) = k p := orElse_fail (k p)
  rw [hone]
  apply Even.refl

theorem even_orElse_joined_append (best : Outcome) (k : Continuation) (ps qs : List Path) :
  (best.orElse (joined ((ps ++ qs).map k))).Even
    ((best.orElse (joined (ps.map k))).orElse (joined (qs.map k)))
  := by
  rw [List.map_append]
  apply ((Even.refl best).orElse (even_joined_append _ _)).trans
  apply (even_orElse_assoc _ _ _).symm

theorem Even.orElse_joined_nil (h : a.Even b) :
  a.Even (b.orElse (joined []))
  := by
  have hnone : b.orElse (joined []) = b := orElse_fail b
  rwa [hnone]

/-- Joining is the same when the parts are even, one by one. -/
theorem even_joined_map {α : Type} {as : List α} {f g : α → Outcome}
    (h : ∀ a ∈ as, (f a).Even (g a)) :
  (joined (as.map f)).Even (joined (as.map g))
  := by
  induction as with
  | nil => apply Even.refl
  | cons a as ih =>
      apply (h a List.mem_cons_self).orElse
      apply ih (fun b hb => h b (List.mem_cons_of_mem a hb))

/-- What some parts have together that are joined themselves. -/
theorem even_joined_flatMap {α : Type} (as : List α) (f : α → List Outcome) :
  (joined (as.flatMap f)).Even (joined (as.map fun a => joined (f a)))
  := by
  induction as with
  | nil => apply Even.refl
  | cons a as ih =>
      rw [List.flatMap_cons]
      apply (even_joined_append _ _).trans ((Even.refl _).orElse ih)

theorem map_left_joined (os : List Outcome) :
  (joined os).found.map Path.left = closestOf id (os.map fun o => o.found.map Path.left)
  := by
  induction os with
  | nil => rfl
  | cons o os ih =>
      have hcons : joined (o :: os) = o.orElse (joined os) := rfl
      rw [hcons, map_left_orElse, ih]
      rfl

theorem endingAt?_joined (os : List Outcome) (i : Nat) :
  (joined os).endingAt? i = closestOf Ending.left (os.map fun o => o.endingAt? i)
  := by
  induction os with
  | nil => rfl
  | cons o os ih =>
      have hcons : joined (o :: os) = o.orElse (joined os) := rfl
      rw [hcons, endingAt?_orElse, ih]
      rfl

/-- Exploring joins what is found after the alternatives, or stops at a path through the whole
word. -/
theorem even_explore {α : Type} {enough : Path → Bool} {search : α → Outcome}
    (henough : ∀ p, enough p = true → p.left = 0) (as : List α) (best : Outcome) :
  (explore enough search as best).Even (best.orElse (joined (as.map search)))
  := by
  induction as generalizing best with
  | nil =>
      apply (Even.refl best).orElse_joined_nil
  | cons a as ih =>
      rw [explore]
      have hassoc := even_orElse_assoc best (search a) (joined (as.map search))
      split
      · next hsat =>
        have hfull := full_of_satisfies henough hsat
        exact even_of_full hfull (hassoc.full (hfull.orElse_left _))
      · exact (ih _).trans hassoc

end Outcome

/-! ### Steps that try routes -/

/-- How far one comes from a path by going on. -/
def Continuation.outlook (k : Continuation) : Outlook := fun p => (k p).found.map Path.left

/-- A step brings back what is found behind the routes. -/
def Step.Tries (step : Step) (R : Outlook → Routes) : Prop :=
  ∀ (k : Continuation) (p : Path), k.Forward →
    (step k p).Even (joined ((R k.outlook p).map k))

theorem Step.Tries.outlook {step : Step} {R : Outlook → Routes} (h : step.Tries R)
    {k : Continuation} (hk : k.Forward) :
  (step k).outlook = k.outlook.before (R k.outlook)
  := by
  funext p
  rw [Continuation.outlook, (h k p hk).found, map_left_joined, List.map_map, Outlook.before]
  rfl

/-! ### Rounds -/

section Rounds

variable {k : Continuation}

theorem outlook_endRound (mayStop : Bool) :
  Continuation.outlook (endRound mayStop k) = k.outlook.provided mayStop
  := by
  funext p
  cases mayStop with
  | true => rfl
  | false => rfl

/-- What the ends of rounds have together as it is seen from outside. -/
theorem even_outside_joined (mayStop : Bool) (ps : List Path) :
  (joined (ps.map (endRound mayStop k))).outside.Even
    (joined ((if mayStop then ps else []).map k))
  := by
  induction ps with
  | nil =>
      rw [ite_self]
      apply Even.refl
  | cons p ps ih =>
      have houtside := even_outside_orElse (endRound mayStop k p)
        (joined (ps.map (endRound mayStop k)))
      apply houtside.trans
      cases mayStop with
      | true => exact (Even.refl (k p)).orElse ih
      | false => exact (Even.refl fail).orElse ih

/-- The ending that ends of rounds have together is the one to commit to. -/
theorem ending?_joined (mayStop : Bool) (ps : List Path) :
  (joined (ps.map (endRound mayStop k))).ending? =
    ((k.outlook.provided mayStop).commit? ps).map fun p =>
      ⟨p, (k.outlook.provided mayStop).left p⟩
  := by
  have hend : ∀ p, (endRound mayStop k p).endingAt? 0 =
      some ⟨p, (k.outlook.provided mayStop).left p⟩ := by
    intro p
    cases mayStop with
    | true => rfl
    | false => rfl
  have hcommit := @closestOf_map Ending Path Ending.left
    (fun p => ⟨p, (k.outlook.provided mayStop).left p⟩) (ps.map some)
  rw [ending?_eq, endingAt?_joined, Outlook.commit?]
  apply Eq.trans _ hcommit
  rw [List.map_map, List.map_map]
  congr 1
  apply List.map_congr_left
  exact fun p _ => hend p

/-- A round tries the routes of its steps one after the other. -/
theorem even_round {enough : Path → Bool} (henough : ∀ p, enough p = true → p.left = 0)
    {α : Type} {as : List α} {step : α → Step} {R : α → Outlook → Routes}
    (hR : ∀ a ∈ as, (step a).Tries (R a)) (hk : k.Forward) (mayStop : Bool) (p : Path) :
  (round enough (as.map step) mayStop k p).Even
    (joined ((as.flatMap fun a => R a (k.outlook.provided mayStop) p).map (endRound mayStop k)))
  := by
  rw [round, explore_map]
  apply (even_explore henough as .fail).trans
  apply Even.symm
  rw [List.map_flatMap]
  apply (even_joined_flatMap as _).trans
  apply even_joined_map
  intro a ha
  rw [← outlook_endRound]
  exact (hR a ha _ p (forward_endRound hk mayStop)).symm

section Kept

variable {o : Outcome} {mayStop : Bool} {endings : List Path}
  (hround : o.Even (joined (endings.map (endRound mayStop k))))
include hround

/-- What is kept after a round is what its endings have together, if they may be the last ones. -/
theorem even_kept (best : Outcome) :
  (best.orRather o.outside).Even
    (best.orElse (joined ((if mayStop then endings else []).map k)))
  := by
  apply (even_orRather best o.outside).trans
  apply (Even.refl best).orElse
  apply hround.outside.trans (even_outside_joined mayStop endings)

/-- A round that has found no path through the whole word leads to the ending to commit to. -/
theorem ending?_eq_commit? (hfull : ¬ o.Full) :
  o.ending? = ((k.outlook.provided mayStop).commit? endings).map fun p =>
    ⟨p, (k.outlook.provided mayStop).left p⟩
  := by
  have hsame := hround.resolve_right fun h => hfull h.1
  rw [ending?_eq, hsame.2, ← ending?_eq, ending?_joined]

end Kept

variable {enough : Path → Bool} (henough : ∀ p, enough p = true ↔ p.left = 0)
  {steps : List Step} {R : Outlook → Routes}
include henough

/-- The rounds after the first `count` try the committed paths along them. -/
theorem even_rounds {reps : Reps}
    (hR : ∀ mayStop p, (round enough steps mayStop k p).Even
      (joined ((R (k.outlook.provided mayStop) p).map (endRound mayStop k))))
    {count : Nat} {best : Outcome} {p : Path} :
  (rounds enough steps reps k count best p).Even
    (best.orElse (joined ((Routes.rounds R reps k.outlook count p).map k)))
  := by
  induction hn : p.left using Nat.strongRecOn generalizing count best p with
  | ind n ih =>
      rw [rounds, Routes.rounds]
      split
      · dsimp only
        have hround := hR (decide (reps.least ≤ count + 1)) p
        have hkept := even_kept hround best
        apply Even.trans _ (even_orElse_joined_append best k _ _).symm
        split
        · next hsat =>
          -- with a path through the whole word, other paths make no difference
          have hfull := full_of_satisfies (fun p => (henough p).mp) hsat
          exact even_of_full hfull ((hkept.full hfull).orElse_left _)
        · next hsat =>
          have hfull : ¬ (round enough steps (decide (reps.least ≤ count + 1)) k p).Full :=
            fun h => hsat (satisfies_of_full henough (Meets.orRather_right (g := .path 0) best h))
          rw [ending?_eq_commit? hround hfull]
          cases (k.outlook.provided (decide (reps.least ≤ count + 1))).commit?
              (R (k.outlook.provided (decide (reps.least ≤ count + 1))) p) with
          | none => exact hkept.orElse_joined_nil
          | some q =>
              rw [Option.map_some]
              dsimp only
              split
              · next hlt => exact (ih _ (hn ▸ hlt) rfl).trans (hkept.orElse (Even.refl _))
              · split
                · next hstop =>
                  rw [if_pos hstop] at hkept
                  exact hkept.orElse_joined_nil
                · next hstop =>
                  rw [if_neg hstop] at hkept
                  apply (even_orRather _ (k q)).trans
                  apply hkept.orElse (even_joined_singleton k q)
      · apply (Even.refl best).orElse_joined_nil

theorem Step.Tries.repeated (reps : Reps)
    (hR : ∀ (k : Continuation) mayStop p, k.Forward → (round enough steps mayStop k p).Even
      (joined ((R (k.outlook.provided mayStop) p).map (endRound mayStop k)))) :
  Step.Tries (Respell.repeated enough steps reps) (Routes.repeated R reps)
  := by
  intro k p hk
  rw [Respell.repeated, Routes.repeated]
  apply (even_rounds henough fun mayStop p => hR k mayStop p hk).trans
  rw [List.map_append]
  apply Even.trans _ (even_joined_append _ _).symm
  apply Even.orElse _ (Even.refl _)
  split
  · apply even_joined_singleton
  · apply Even.refl

end Rounds

/-! ### Searches along a pattern -/

namespace Search

variable (lexicon : Lexicon)

/-- A step tries the ways of a choice when it follows them. -/
theorem tries_downFromMost {step? : Path → Option Path} {C : Choice}
    (hC : Path.Follows step? C) (reps : Reps) :
  ((untilWordEnd lexicon).downFromMost step? reps).Tries
    fun _ => Routes.ofChoice (C.repeated reps)
  := by
  intro k p _
  rw [downFromMost, Path.reverse_drop_iterates hC reps p]
  apply even_explore (left_of_enough lexicon) _ .fail

theorem tries_memberStep (casing : Casing) (m : Member) :
  (memberStep casing m).Tries
    fun _ => Routes.ofChoice (Choice.replaceText casing m.text m.replacement)
  := by
  intro k p _
  dsimp only [memberStep, Routes.ofChoice, Choice.replaceText, Path.place]
  split
  · apply even_joined_singleton
  · apply Even.refl

/-- The rest of the word is taken or nothing is; if anything is found after all of the rest,
nothing goes farther. -/
theorem tries_remainder (reps : Reps) :
  ((untilWordEnd lexicon).leaf reps .remainder).Tries (Routes.leaf lexicon reps .remainder)
  := by
  intro k p hk
  have hadvance : p.advance p.left p.rest = p.along p.rest ⟨[], p.captures⟩ := by
    simp [Path.advance, Path.along, Path.left]
  simp only [leaf, hadvance, Routes.leaf, Routes.ofChoice, Choice.leaf, Bool.and_eq_true,
    decide_eq_true_eq, Path.place]
  by_cases hleast : reps.least = 0
  · have hroutes := (Even.refl (k (p.along p.rest ⟨[], p.captures⟩))).orElse
      (even_joined_singleton k p)
    rw [if_pos hleast]
    split
    · apply hroutes
    · next hall =>
      have hsome : (k (p.along p.rest ⟨[], p.captures⟩)).found ≠ none :=
        fun hnone => hall ⟨Option.isNone_iff_eq_none.mpr hnone, hleast⟩
      obtain ⟨q, hq⟩ := Option.ne_none_iff_exists'.mp hsome
      have hfull : (k (p.along p.rest ⟨[], p.captures⟩)).Full := ⟨q, hq, hk _ q hq⟩
      exact even_of_full hfull (hroutes.full (hfull.orElse_left _))
  · rw [if_neg hleast, if_neg fun h => hleast h.2]
    apply even_joined_singleton

theorem tries_leaf (reps : Reps) (content : Leaf) :
  ((untilWordEnd lexicon).leaf reps content).Tries (Routes.leaf lexicon reps content)
  := by
  cases content with
  | byte b => apply tries_downFromMost lexicon (Path.follows_copyByte _)
  | set members => apply tries_downFromMost lexicon (Path.follows_copyByte _)
  | literal text replacement =>
      simp only [leaf, replaceText, Routes.leaf, Choice.leaf, List.isEmpty_iff]
      split
      · intro k p _
        apply even_joined_singleton
      · apply tries_downFromMost lexicon (Path.follows_replaceText text replacement)
  | memberOf id =>
      apply Step.Tries.repeated (untilWordEnd_enough lexicon)
      intro k mayStop p hk
      have hlexicon : (untilWordEnd lexicon).lexicon = lexicon := rfl
      rw [classSteps, hlexicon]
      dsimp only [Routes.ofChoice, Choice.member]
      cases lexicon.get? id with
      | none => apply Even.refl
      | some c =>
          dsimp only
          rw [List.map_flatMap]
          have hmembers : ∀ m ∈ c.members, (memberStep c.casing m).Tries
              fun _ => Routes.ofChoice (Choice.replaceText c.casing m.text m.replacement) :=
            fun m _ => tries_memberStep c.casing m
          apply even_round (left_of_enough lexicon) hmembers hk
  | wordEnd =>
      intro k p _
      have hroutes : Routes.leaf lexicon reps .wordEnd k.outlook p =
          (if p.rest = [] ∨ reps.least = 0 then Choice.stay p.place else []).map
            fun x => p.along x.1 x.2 := rfl
      rw [hroutes]
      simp only [leaf, Bool.or_eq_true, List.isEmpty_iff, decide_eq_true_eq]
      split
      · apply even_joined_singleton
      · apply Even.refl
  | remainder => apply tries_remainder

theorem tries_chain_of_nodes {nodes : List Node}
    (h : ∀ n ∈ nodes, ((untilWordEnd lexicon).node n).Tries (Routes.node lexicon n)) :
  ((untilWordEnd lexicon).chain nodes).Tries (Routes.chain lexicon nodes)
  := by
  induction nodes with
  | nil =>
      intro k p _
      apply even_joined_singleton
  | cons n ns ih =>
      have ih := ih (fun m hm => h m (List.mem_cons_of_mem n hm))
      intro k p hk
      have hforward := ((untilWordEnd lexicon).sound_chain ns).forward
        (Ways.onward_chain _ ns) hk
      rw [chain, Routes.chain]
      apply (h n List.mem_cons_self _ p hforward).trans
      rw [ih.outlook hk, List.map_flatMap]
      apply Even.trans _ (even_joined_flatMap _ _).symm
      apply even_joined_map
      exact fun q _ => ih k q hk

theorem tries_branchStep {number : Nat} {b : Branch Node}
    (h : ((untilWordEnd lexicon).chain b.nodes).Tries (Routes.chain lexicon b.nodes)) :
  ((untilWordEnd lexicon).branchStep number b).Tries (Routes.branch lexicon number b)
  := by
  intro k p hk
  rw [branchStep_eq, Routes.branch_eq, List.map_map]
  apply h _ p
  exact fun q => hk _

theorem tries_node (n : Node) :
  ((untilWordEnd lexicon).node n).Tries (Routes.node lexicon n)
  := by
  induction n using Node.ind with
  | leaf content reps => apply tries_leaf
  | group number branches reps ih =>
      apply Step.Tries.repeated (untilWordEnd_enough lexicon)
      intro k mayStop p hk
      rw [branchSteps_eq_map, Routes.branchOf_eq_flatMap]
      apply even_round (left_of_enough lexicon) _ hk
      exact fun b hb => tries_branchStep lexicon (tries_chain_of_nodes lexicon (ih b hb))

/-- The search along a chain tries the committed paths along it. -/
theorem tries_chain (nodes : List Node) :
  ((untilWordEnd lexicon).chain nodes).Tries (Routes.chain lexicon nodes)
  := tries_chain_of_nodes lexicon fun n _ => tries_node lexicon n

end Search

end Respell
