import Respell.Proofs.Pattern.Node
import Respell.Proofs.Search.Outcome
import Respell.Search.Run

/-!
# Equal searches

Two searches are equal when they are equal at every leaf that occurs in a pattern.  A repeated
step depends on its rounds only, and a round on those of its alternatives that do not fail.
-/

namespace Respell

open Outcome

theorem Outcome.orElse_fail (o : Outcome) :
  o.orElse fail = o
  := by
  obtain ⟨found, endings⟩ := o
  have hendings : joinEndings endings [] = endings := by
    cases endings with
    | nil => rfl
    | cons e es => rfl
  rw [orElse, fail]
  dsimp only
  rw [closest_none_right, hendings]

section Explore

variable {α β : Type} {enough : Path → Bool} {search : α → Outcome}

theorem explore_map (f : β → α) (bs : List β) (best : Outcome) :
  explore enough search (bs.map f) best = explore enough (fun b => search (f b)) bs best
  := by
  induction bs generalizing best with
  | nil => rfl
  | cons b bs ih =>
      rw [List.map_cons, explore, explore, ih]

/-- Alternatives that fail may be left out. -/
theorem explore_filter {keep : α → Bool} (h : ∀ a, ¬ keep a = true → search a = fail)
    (as : List α) {best : Outcome} (hbest : ¬ best.satisfies enough = true) :
  explore enough search (as.filter keep) best = explore enough search as best
  := by
  induction as generalizing best with
  | nil => rfl
  | cons a as ih =>
      rw [explore]
      by_cases hkeep : keep a = true
      · rw [List.filter_cons_of_pos hkeep, explore]
        split
        · rfl
        · next hnext => apply ih hnext
      · rw [List.filter_cons_of_neg hkeep, h a hkeep, orElse_fail]
        rw [if_neg hbest, ih hbest]

end Explore

/-! ### Repeated steps -/

/-- Steps that make the same rounds are repeated in the same way. -/
theorem repeated_congr {enough : Path → Bool} {steps steps' : List Step}
    (h : ∀ mayStop k p, round enough steps mayStop k p = round enough steps' mayStop k p)
    (reps : Reps) :
  repeated enough steps reps = repeated enough steps' reps
  := by
  have hrounds : ∀ k n count best p, p.left = n →
      rounds enough steps reps k count best p = rounds enough steps' reps k count best p := by
    intro k n
    induction n using Nat.strongRecOn with
    | ind n ih =>
        intro count best p hp
        rw [rounds, rounds]
        dsimp only
        rw [h]
        split
        · split
          · rfl
          · split
            · rfl
            · split
              · next hlt => apply ih _ (hp ▸ hlt) _ _ _ rfl
              · rfl
        · rfl
  funext k p
  rw [repeated, repeated, hrounds k p.left _ _ _ rfl]

/-! ### Chains -/

namespace Search

variable {s s' : Search}

theorem chain_congr_of_nodes {nodes : List Node} (h : ∀ n ∈ nodes, s.node n = s'.node n) :
  s.chain nodes = s'.chain nodes
  := by
  induction nodes with
  | nil => rfl
  | cons n ns ih =>
      rw [chain, chain, h n List.mem_cons_self, ih (fun m hm => h m (List.mem_cons_of_mem n hm))]

theorem node_congr (henough : s.enough = s'.enough) (n : Node)
    (h : ∀ content reps, (Node.leaf content reps).Occurs [n] →
      s.leaf reps content = s'.leaf reps content) :
  s.node n = s'.node n
  := by
  induction n using Node.ind with
  | leaf content reps =>
      rw [node, node]
      apply h content reps (Node.Occurs.here List.mem_cons_self)
  | group number branches reps ih =>
      have hsteps : s.branchSteps number branches = s'.branchSteps number branches := by
        rw [branchSteps_eq_map, branchSteps_eq_map]
        apply List.map_congr_left
        intro b hb
        have hchain : s.chain b.nodes = s'.chain b.nodes := by
          apply chain_congr_of_nodes
          intro n hn
          apply ih b hb n hn
          intro content reps ho
          apply h content reps (ho.ofBranch hb hn)
        rw [branchStep_eq, branchStep_eq, hchain]
      rw [node, node, henough, hsteps]

/-- Searches that stop at the same paths and are equal at the leaves of a chain are equal along
the chain. -/
theorem chain_congr (henough : s.enough = s'.enough) {nodes : List Node}
    (h : ∀ content reps, (Node.leaf content reps).Occurs nodes →
      s.leaf reps content = s'.leaf reps content) :
  s.chain nodes = s'.chain nodes
  := by
  apply chain_congr_of_nodes
  intro n hn
  apply node_congr henough
  intro content reps ho
  apply h content reps (Node.Occurs.ofMem hn ho)

end Search

end Respell
