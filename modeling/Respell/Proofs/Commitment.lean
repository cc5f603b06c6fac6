import Respell.Proofs.Search.Preference

/-!
# Committed paths

A repetition of a group or of a class that is followed by another one is committed to a single
ending.  It is the ending from which the rest of the pattern comes farthest, if the rest may
follow there, and otherwise the ending that is farthest itself; of several such endings it is
the first one.  How far the rest of the pattern comes is the outlook from an ending.

The committed paths along a pattern are listed in the order in which they are tried.  Each of
them is along a way, but there are ways that are not committed.
-/

namespace Respell

/-- How much is unread at least after the rest of a pattern, if it can follow a path. -/
abbrev Outlook := Path → Option Nat

/-- The paths along a part of a pattern, in the order in which they are tried. -/
abbrev Routes := Path → List Path

namespace Outlook

/-- Behind the pattern. -/
def done : Outlook := fun p => some p.left

/-- The outlook if the rest of the pattern may follow, and none if it may not. -/
def provided (K : Outlook) (mayStop : Bool) : Outlook := fun p => if mayStop then K p else none

/-- In front of one more part of the pattern. -/
def before (K : Outlook) (R : Routes) : Outlook := fun p => closestOf id ((R p).map K)

/-- What is unread after an ending and the rest of the pattern, or after the ending alone if
the rest cannot follow. -/
def left (K : Outlook) (p : Path) : Nat := (K p).getD p.left

/-- The ending to commit to: the one that leaves the least, and the first of those. -/
def commit? (K : Outlook) (endings : List Path) : Option Path :=
  closestOf K.left (endings.map some)

end Outlook

namespace Routes

/-- The paths along the ways of a choice. -/
def ofChoice (C : Choice) : Routes := fun p => (C p.place).map fun x => p.along x.1 x.2

/-- The paths along the repetitions after the first `count`, where `R` has those along a single
repetition.  Each ending may be the last one if that makes enough repetitions, but only the one
to commit to is followed by another repetition.  If nothing is taken on the way to it, it is the
last one in any case, and counts as all that are still missing. -/
def rounds (R : Outlook → Routes) (reps : Reps) (K : Outlook) (count : Nat) (p : Path) :
    List Path :=
  if reps.allowsMore count then
    let mayStop : Bool := reps.least ≤ count + 1
    let endings := R (K.provided mayStop) p
    let last := if mayStop then endings else []
    last ++ match (K.provided mayStop).commit? endings with
    | none => []
    | some q =>
      if q.left < p.left then rounds R reps K (count + 1) q
      else if mayStop then [] else [q]
  else []
  termination_by p.left

/-- The paths along as many repetitions as the bounds allow. -/
def repeated (R : Outlook → Routes) (reps : Reps) (K : Outlook) : Routes := fun p =>
  (if reps.least = 0 then [p] else []) ++ rounds R reps K 0 p

variable (lexicon : Lexicon)

/-- The paths along a leaf. -/
def leaf (reps : Reps) : Leaf → Outlook → Routes
  | .memberOf id => repeated (fun _ => ofChoice (Choice.member lexicon id)) reps
  | content => fun _ => ofChoice (Choice.leaf lexicon reps content)

mutual

/-- The paths along a node. -/
def node : Node → Outlook → Routes
  | .leaf content reps => leaf lexicon reps content
  | .group number branches reps => repeated (branchOf number branches) reps

/-- The paths along a chain. -/
def chain : List Node → Outlook → Routes
  | [] => fun _ p => [p]
  | n :: ns => fun K p => (node n (K.before (chain ns K)) p).flatMap (chain ns K)

/-- The paths along a branch of the group with the given number. -/
def branch (number : Nat) : Branch Node → Outlook → Routes
  | ⟨nodes, replacement⟩ => fun K p =>
    (chain nodes (fun q => K (q.leaveBranch p.given number replacement)) p).map
      fun q => q.leaveBranch p.given number replacement

/-- The paths along the branches of the group with the given number. -/
def branchOf (number : Nat) : List (Branch Node) → Outlook → Routes
  | [] => fun _ _ => []
  | b :: bs => fun K p => branch number b K p ++ branchOf number bs K p

end

theorem branch_eq (number : Nat) (b : Branch Node) :
  branch lexicon number b = fun K p =>
    (chain lexicon b.nodes (fun q => K (q.leaveBranch p.given number b.replacement)) p).map
      fun q => q.leaveBranch p.given number b.replacement
  := by
  cases b
  rw [branch]

theorem branchOf_eq_flatMap (number : Nat) (branches : List (Branch Node)) :
  branchOf lexicon number branches =
    fun K p => branches.flatMap fun b => branch lexicon number b K p
  := by
  induction branches with
  | nil => rfl
  | cons b bs ih =>
      funext K p
      rw [branchOf, ih]
      rfl

/-! ### Committed paths are along ways -/

/-- Each of the paths is along a way. -/
def Along (R : Routes) (W : Way) : Prop :=
  ∀ p, ∀ q ∈ R p, ∃ t b, W p.place t b ∧ q = p.along t b

theorem along_ofChoice {C : Choice} {W : Way} (h : C.Lists W) :
  (ofChoice C).Along W
  := by
  intro p q hq
  obtain ⟨⟨t, b⟩, hx, rfl⟩ := List.mem_map.mp hq
  use t, b, (h p.place t b).mp hx

section Rounds

variable {R : Outlook → Routes} {W : Way} (hR : ∀ K, (R K).Along W) (hW : W.Onward)
include hR hW

/-- When the first `count` repetitions have led to `p`, the others lead along a way. -/
theorem along_rounds (K : Outlook) {reps : Reps} {count : Nat} {p₀ p : Path}
    (reached : Reached W p₀ count p) :
  ∀ q ∈ rounds R reps K count p,
    ∃ t b, Way.Rounds W (fun _ _ _ => True) reps p₀.place t b ∧ q = p₀.along t b
  := by
  induction hn : p.left using Nat.strongRecOn generalizing count p with
  | ind n ih =>
      intro q' hq'
      rw [rounds] at hq'
      split at hq'
      · next hmore =>
        have hmost := (reps.allowsMore_iff count).mp hmore
        dsimp only at hq'
        rcases List.mem_append.mp hq' with hq' | hq'
        · split at hq'
          · next hstop =>
            obtain ⟨s, a, hs, rfl⟩ := reached
            obtain ⟨t, b, hw, rfl⟩ := hR _ _ q' hq'
            use s ++ t, b, Way.Rounds.some hs hw ⟨of_decide_eq_true hstop, hmost⟩
            apply Path.along_along
          · cases hq'
        · split at hq'
          · cases hq'
          · next q hcommit =>
            obtain ⟨t, b, hw, rfl⟩ := hR _ _ q (mem_of_closestOf hcommit)
            split at hq'
            · next hlt => apply ih _ (hn ▸ hlt) (reached.more hw) rfl q' hq'
            · next hlt =>
              split at hq'
              · cases hq'
              · obtain rfl := List.mem_singleton.mp hq'
                have hrest : b.rest = p.rest :=
                  (hW _ _ _ hw).eq_of_length_le (Nat.le_of_not_lt hlt)
                obtain ⟨s, a, hs, rfl⟩ := reached
                use s ++ t, b, Way.Rounds.idle hs ⟨hw, trivial⟩ hrest hmost
                apply Path.along_along
      · cases hq'

theorem along_repeated (K : Outlook) (reps : Reps) :
  (repeated R reps K).Along (Way.Rounds W (fun _ _ _ => True) reps)
  := by
  intro p q hq
  rcases List.mem_append.mp hq with hq | hq
  · split at hq
    · next hleast =>
      obtain rfl := List.mem_singleton.mp hq
      use [], q.place, Way.Rounds.none hleast
      rfl
    · cases hq
  · apply along_rounds hR hW K _ q hq
    use [], p.place, Way.Times.nil
    rfl

end Rounds

theorem along_leaf (reps : Reps) (content : Leaf) (K : Outlook) :
  (leaf lexicon reps content K).Along ((Ways.every lexicon).leaf reps content)
  := by
  cases content with
  | memberOf id =>
      apply along_repeated (fun _ => along_ofChoice (Choice.lists_member lexicon id))
      apply Ways.onward_member
  | _ => exact along_ofChoice (Choice.lists_leaf lexicon id)

theorem along_chain_of_nodes {nodes : List Node}
    (h : ∀ n ∈ nodes, ∀ K, (node lexicon n K).Along ((Ways.every lexicon).node n)) (K : Outlook) :
  (chain lexicon nodes K).Along ((Ways.every lexicon).chain nodes)
  := by
  induction nodes with
  | nil =>
      intro p q hq
      obtain rfl := List.mem_singleton.mp hq
      use [], q.place, ⟨rfl, rfl⟩
      rfl
  | cons n ns ih =>
      intro p q hq
      obtain ⟨r, hr, hq⟩ := List.mem_flatMap.mp hq
      obtain ⟨s, b, hs, rfl⟩ := h n List.mem_cons_self _ p r hr
      obtain ⟨t, c, ht, rfl⟩ := ih (fun m hm => h m (List.mem_cons_of_mem n hm)) _ q hq
      use s ++ t, c, ⟨s, b, t, hs, ht, rfl⟩
      apply Path.along_along

theorem along_branchOf {number : Nat} {branches : List (Branch Node)}
    (h : ∀ b ∈ branches, ∀ K,
      (chain lexicon b.nodes K).Along ((Ways.every lexicon).chain b.nodes)) (K : Outlook) :
  (branchOf lexicon number branches K).Along ((Ways.every lexicon).branchOf number branches)
  := by
  intro p q hq
  rw [branchOf_eq_flatMap] at hq
  obtain ⟨b, hb, hq⟩ := List.mem_flatMap.mp hq
  rw [branch_eq] at hq
  obtain ⟨r, hr, rfl⟩ := List.mem_map.mp hq
  obtain ⟨s, c, hs, rfl⟩ := h b hb _ p r hr
  rw [Path.leaveBranch_along]
  refine ⟨_, _, (Ways.branchOf_iff _ _ _ _ _ _).mpr ⟨b, hb, ?_⟩, rfl⟩
  rw [Ways.branch_eq]
  use s, c, hs, rfl

theorem along_node (n : Node) (K : Outlook) :
  (node lexicon n K).Along ((Ways.every lexicon).node n)
  := by
  induction n using Node.ind generalizing K with
  | leaf content reps => apply along_leaf
  | group number branches reps ih =>
      apply along_repeated
      · apply along_branchOf
        exact fun b hb => along_chain_of_nodes lexicon (ih b hb)
      · apply Ways.onward_branchOf
        exact fun b _ => Ways.onward_chain _ b.nodes

/-- Committed paths along a chain are along its ways. -/
theorem along_chain (nodes : List Node) (K : Outlook) :
  (chain lexicon nodes K).Along ((Ways.every lexicon).chain nodes)
  := along_chain_of_nodes lexicon (fun n _ => along_node lexicon n) K

end Routes

end Respell
