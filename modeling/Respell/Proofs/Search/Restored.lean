import Mathlib.Tactic.Common
import Respell.Proofs.Pattern.Node
import Respell.Proofs.Search.Probe

/-!
# Probes put the trail back

A probe that returns leaves the trail as it was given it.  What is written on the trail is written
behind what was there, and is cut off again.  Only the end of a branch takes something away first,
and it keeps what it took to put it back.  The rounds of a repetition go on along the trail without
putting anything back, but all the output from before the first one stays in front.

This holds whatever the marks are.  A probe does not return when it comes to a mark that is behind
the end of the output.
-/

namespace Respell

namespace Trail

variable (t : Trail)

/-- What is given out can be cut off. -/
theorem truncate_give (text : Bytes) :
  (t.give text).truncate t.output.length = t
  := by
  rw [give, truncate, List.take_left]

/-- What is cut off can be given out again. -/
theorem give_truncate (mark : Nat) :
  (t.truncate mark).give (t.output.drop mark) = t
  := by
  rw [give, truncate, List.take_append_drop]

/-- A capture is undone by what was in its place before. -/
theorem putBack_put (number : Nat) (text : Bytes) :
  (t.put number text).putBack number t.captures[number]? = t
  := by
  by_cases hn : number < captureCount
  · have hback : (t.captures.put number text).setIfInBounds number t.captures[number] =
        t.captures := by
      rw [Captures.put, Vector.setIfInBounds_setIfInBounds]
      apply Vector.ext
      intro i hi
      rw [Vector.getElem_setIfInBounds hi]
      split
      · next heq =>
        subst heq
        rfl
      · rfl
    rw [Vector.getElem?_eq_getElem hn, putBack, put, hback]
  · rw [Vector.getElem?_eq_none (Nat.le_of_not_lt hn), putBack, put, Captures.put,
      Vector.setIfInBounds_eq_of_size_le (Nat.le_of_not_lt hn)]

/-- What the end of a branch does to a trail is undone from the last step to the first one. -/
theorem undo_close {mark : Nat} (hmark : mark ≤ t.output.length) (number : Nat) (text : Bytes) :
  (((((t.truncate mark).give text).put number text).putBack number t.captures[number]?).truncate
    mark).give (t.output.drop mark) = t
  := by
  have hback : (((t.truncate mark).give text).put number text).putBack number
      t.captures[number]? = (t.truncate mark).give text := putBack_put _ number text
  have htruncate := (t.truncate mark).truncate_give text
  have hlength : (t.truncate mark).output.length = mark := List.length_take_of_le hmark
  rw [hlength] at htruncate
  rw [hback, htruncate, give_truncate]

end Trail

/-- Where the probe returns, the trail is as it was. -/
def Probe.Restores (k : Probe) : Prop :=
  ∀ rest t r u, k rest t = some (r, u) → u = t

namespace Probe

variable {k : Probe}

theorem restores_done :
  done.Restores
  := by
  intro rest t r u h
  cases h
  rfl

theorem Restores.provided (hk : k.Restores) (mayStop : Bool) :
  (k.provided mayStop).Restores
  := by
  intro rest t r u h
  rw [Probe.provided] at h
  split at h
  · apply hk rest t r u h
  · cases h
    rfl

theorem Restores.giving (hk : k.Restores) (text : Bytes) :
  (k.giving text).Restores
  := by
  intro rest t r u h
  obtain ⟨⟨r', t'⟩, hr, heq⟩ := Option.map_eq_some_iff.mp h
  cases heq
  rw [hk _ _ _ _ hr, t.truncate_give]

theorem restores_explore {α : Type} {enough : Path → Bool}
    {probe : α → Trail → Option (Probed × Trail)} {as : List α}
    (h : ∀ a ∈ as, ∀ t r u, probe a t = some (r, u) → u = t) {best r : Probed} {t u : Trail}
    (hr : explore enough probe as best t = some (r, u)) :
  u = t
  := by
  induction as generalizing best t with
  | nil =>
      cases hr
      rfl
  | cons a as ih =>
      rw [explore] at hr
      obtain ⟨⟨r', t'⟩, ha, hnext⟩ := Option.bind_eq_some_iff.mp hr
      obtain rfl := h a List.mem_cons_self _ _ _ ha
      dsimp only at hnext
      split at hnext
      · cases hnext
        rfl
      · apply ih (fun b hb => h b (List.mem_cons_of_mem a hb)) hnext

/-- The end of a branch puts back the capture, and then what the branch has given out. -/
theorem Restores.close (hk : k.Restores) (b : Entered) :
  (k.close b).Restores
  := by
  intro rest t r u h
  rw [Probe.close] at h
  split at h
  · next hmark =>
    obtain ⟨⟨r', t'⟩, hr, heq⟩ := Option.map_eq_some_iff.mp h
    cases heq
    generalize b.replacement.getD (t.output.drop b.mark) = text at hr
    rw [hk.provided b.mayStop _ _ _ _ hr, t.undo_close hmark]
  · cases h

theorem Restores.member (hk : k.Restores) (casing : Casing) (m : Member) (mayStop : Bool) :
  (member casing m mayStop k).Restores
  := by
  intro rest t r u h
  rw [Probe.member] at h
  split at h
  · obtain ⟨⟨r', t'⟩, hr, heq⟩ := Option.map_eq_some_iff.mp h
    cases heq
    apply (hk.giving m.replacement).provided mayStop _ _ _ _ hr
  · cases h
    rfl

/-! ### Rounds -/

/-- All of the steps restore the trail when what follows them does. -/
def AllRestore (steps : List (Bool → Probe → Probe)) : Prop :=
  ∀ step ∈ steps, ∀ (mayStop : Bool) (k : Probe), k.Restores → (step mayStop k).Restores

section Rounds

variable {enough : Path → Bool} {steps : List (Bool → Probe → Probe)} (hs : AllRestore steps)
  (hk : k.Restores)
include hs hk

theorem restores_round (mayStop : Bool) :
  (round enough steps mayStop k).Restores
  := by
  intro rest t r u h
  exact restores_explore (fun step hstep => hs step hstep mayStop k hk rest) h

/-- Rounds do not take back anything that was given out before. -/
theorem prefix_rounds {reps : Reps} {count : Nat} {best r : Probed} {rest : Bytes} {t u : Trail}
    (h : rounds enough steps reps k count best rest t = some (r, u)) :
  t.output <+: u.output
  := by
  induction hn : rest.length using Nat.strongRecOn generalizing count best rest t with
  | ind n ih =>
      rw [rounds] at h
      split at h
      · obtain ⟨⟨r', t'⟩, hround, hnext⟩ := Option.bind_eq_some_iff.mp h
        obtain rfl := restores_round hs hk _ _ _ _ _ hround
        dsimp only at hnext
        split at hnext
        · cases hnext
          apply List.prefix_rfl
        · split at hnext
          · cases hnext
            apply List.prefix_rfl
          · next e he =>
            have honward : t'.output <+: t'.output ++ e.text := List.prefix_append _ _
            split at hnext
            · next hlt => exact honward.trans (ih _ (hn ▸ hlt) hnext rfl)
            · split at hnext
              · cases hnext
                exact honward
              · obtain ⟨⟨r'', u'⟩, hr, heq⟩ := Option.map_eq_some_iff.mp hnext
                cases heq
                rw [hk _ _ _ _ hr]
                exact honward
      · cases h
        apply List.prefix_rfl

theorem restores_repeated (reps : Reps) :
  (repeated enough steps reps k).Restores
  := by
  intro rest t r u h
  obtain ⟨⟨best, t'⟩, hbest, hrest⟩ := Option.bind_eq_some_iff.mp h
  obtain rfl := hk.provided _ _ _ _ _ hbest
  obtain ⟨⟨r', u'⟩, hrounds, heq⟩ := Option.map_eq_some_iff.mp hrest
  obtain ⟨more, hmore⟩ := prefix_rounds hs hk hrounds
  cases heq
  rw [Trail.truncate, ← hmore, List.take_left]

end Rounds

end Probe

/-! ### Probes along a pattern -/

namespace Search

open Probe (AllRestore)

variable (s : Search) {k : Probe}

theorem restores_downFromMost (step? : Path → Option Path) (reps : Reps) (hk : k.Restores) :
  (s.probeDownFromMost step? reps k).Restores
  := by
  intro rest t r u h
  exact Probe.restores_explore (fun p _ => hk.giving p.output p.rest) h

theorem allRestore_memberProbes (id : ClassId) :
  AllRestore (s.memberProbes id)
  := by
  intro step hstep mayStop k hk
  rw [memberProbes] at hstep
  split at hstep
  · cases hstep
  · next c _ =>
    obtain ⟨m, -, rfl⟩ := List.mem_map.mp hstep
    apply hk.member c.casing m mayStop

theorem restores_leaf (reps : Reps) (content : Leaf) (hk : k.Restores) :
  (s.probeLeaf reps content k).Restores
  := by
  cases content with
  | byte b => apply s.restores_downFromMost _ reps hk
  | set members => apply s.restores_downFromMost _ reps hk
  | literal text replacement =>
      rw [probeLeaf]
      split
      · apply hk.giving
      · apply s.restores_downFromMost _ reps hk
  | memberOf id => apply Probe.restores_repeated (s.allRestore_memberProbes id) hk
  | wordEnd =>
      intro rest t r u h
      dsimp only [probeLeaf] at h
      split at h
      · apply hk _ _ _ _ h
      · cases h
        rfl
  | remainder =>
      intro rest t r u h
      dsimp only [probeLeaf] at h
      obtain ⟨⟨all, t'⟩, hall, hnext⟩ := Option.bind_eq_some_iff.mp h
      obtain rfl := hk.giving rest _ _ _ _ hall
      dsimp only at hnext
      split at hnext
      · obtain ⟨⟨r', u'⟩, hr, heq⟩ := Option.map_eq_some_iff.mp hnext
        cases heq
        apply hk _ _ _ _ hr
      · cases hnext
        rfl

theorem restores_chain_of_nodes {nodes : List Node}
    (h : ∀ n ∈ nodes, ∀ k : Probe, k.Restores → (s.probeNode n k).Restores) (hk : k.Restores) :
  (s.probeChain nodes k).Restores
  := by
  induction nodes with
  | nil => apply hk
  | cons n ns ih =>
      apply h n List.mem_cons_self
      apply ih (fun m hm => h m (List.mem_cons_of_mem n hm))

/-- A branch restores the trail when its chain does.  Its end is marked where it begins, whatever
the trail is there. -/
theorem allRestore_branchProbes {number : Nat} {branches : List (Branch Node)}
    (h : ∀ b ∈ branches, ∀ k : Probe, k.Restores → (s.probeChain b.nodes k).Restores) :
  AllRestore (s.branchProbes number branches)
  := by
  intro step hstep mayStop k hk rest t r u hr
  rw [branchProbes_eq_map] at hstep
  obtain ⟨b, hb, rfl⟩ := List.mem_map.mp hstep
  rw [branchProbe_eq] at hr
  apply h b hb _ (hk.close _) _ _ _ _ hr

theorem restores_node (n : Node) :
  ∀ k : Probe, k.Restores → (s.probeNode n k).Restores
  := by
  induction n using Node.ind with
  | leaf content reps =>
      intro k hk
      apply s.restores_leaf reps content hk
  | group number branches reps ih =>
      intro k hk
      apply Probe.restores_repeated _ hk
      apply s.allRestore_branchProbes
      exact fun b hb k hk => s.restores_chain_of_nodes (ih b hb) hk

theorem restores_chain (nodes : List Node) (hk : k.Restores) :
  (s.probeChain nodes k).Restores
  := s.restores_chain_of_nodes (fun n _ => s.restores_node n) hk

theorem allRestore_roundProbes (n : Node) :
  AllRestore (s.roundProbes n)
  := by
  rw [roundProbes.eq_def]
  split
  · apply s.allRestore_memberProbes
  · apply List.forall_mem_nil
  · exact s.allRestore_branchProbes fun b _ k hk => s.restores_chain b.nodes hk

end Search

/-- What remains to be matched may end any branches, wherever these are marked. -/
theorem Next.restores_probe (s : Search) (next : Next) :
  (next.probe s).Restores
  := by
  induction next with
  | done => apply Probe.restores_done
  | seq nodes next ih => apply s.restores_chain nodes ih
  | close b next ih => apply ih.close b

end Respell
