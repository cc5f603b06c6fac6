import Respell.Proofs.Search.Mirrored

/-!
# One trail is enough

A search that keeps a single trail and writes on it finds what the search finds that has a path for
each place.  Its probes return, with the trail as it was, when the marks of the branches that were
entered are nested: each mark is within the output that is left when the branches within have
ended.  So they are in any search of a pattern.
-/

namespace Respell

/-! ### What remains to be matched -/

namespace Next

/-- What a search does with all that remains. -/
def continuation (s : Search) : Next → Continuation
  | done => .done
  | seq nodes next => s.chain nodes (next.continuation s)
  | close b next => fun p =>
    endRound b.mayStop (next.continuation s)
      (p.leaveBranch (p.output.take b.mark).reverse b.number b.replacement)

/-- Each mark is within the output of which only so much is left when its branch ends. -/
def Fits : Next → Nat → Prop
  | done, _ => True
  | seq _ next, length => next.Fits length
  | close b next, length => b.mark ≤ length ∧ next.Fits b.mark

/-- The outputs in front of the branches that were entered. -/
def outputs : Next → Bytes → List Bytes
  | done, _ => []
  | seq _ next, output => next.outputs output
  | close b next, output => output.take b.mark :: next.outputs (output.take b.mark)

theorem nested_outputs (next : Next) (output : Bytes) :
  Nested output (next.outputs output)
  := by
  induction next generalizing output with
  | done => exact trivial
  | seq nodes next ih => exact ih output
  | close b next ih =>
      have hfront : output.take b.mark <+: output := List.take_prefix b.mark output
      exact ⟨hfront, ih _⟩

theorem forward_continuation (s : Search) (next : Next) :
  (next.continuation s).Forward
  := by
  induction next with
  | done => exact forward_done
  | seq nodes next ih => exact (s.sound_chain nodes).forward (Ways.onward_chain _ nodes) ih
  | close b next ih => exact fun p => forward_endRound ih b.mayStop (p.leaveBranch _ _ _)

theorem mirrors_probe (s : Search) {next : Next} {output : Bytes} (h : next.Fits output.length) :
  (next.probe s).Mirrors (next.outputs output) (next.continuation s)
  := by
  induction next generalizing output with
  | done => exact mirrors_done
  | seq nodes next ih => exact s.mirrored_chain nodes _ _ _ (forward_continuation s next) (ih h)
  | close b next ih =>
      intro rest t ht
      obtain ⟨hmark, hfits⟩ := h
      have hlength : (output.take b.mark).length = b.mark := List.length_take_of_le hmark
      have hentry := List.prefix_iff_eq_take.mp ht.1
      rw [hlength] at hentry
      have houtput : (t.path rest).output = t.output := List.reverse_reverse _
      rw [continuation]
      dsimp only
      rw [houtput, ← hentry]
      exact bringsBack_close (forward_continuation s next) (ih (hlength.symm ▸ hfits)) b
        hlength.symm rest ht

/-- A probe that returns leaves the trail as it was, wherever the branches are marked that were
entered and whether or not it found anything, and so does a round of any node in front of what
remains.  They return whenever the marks are nested within the output, and then the probe brings
back what the search does that has a path for each place.  A mark that is behind the end of the
output when its branch ends keeps the probe from returning. -/
theorem trail_after_probe (s : Search) (next : Next) (rest : Bytes) (t : Trail) :
  let round := fun n mayStop =>
    Probe.round s.enough (s.roundProbes n) mayStop (next.probe s) rest t
  (∀ r u, next.probe s rest t = some (r, u) → u = t) ∧
    (∀ n mayStop r u, round n mayStop = some (r, u) → u = t) ∧
    (next.Fits t.output.length →
      (∃ r, next.probe s rest t = some (r, t) ∧
        r.outcome (next.outputs t.output) = next.continuation s (t.path rest)) ∧
      ∀ n mayStop, ∃ r, round n mayStop = some (r, t))
  := by
  refine ⟨?_, ?_, ?_⟩
  · exact restores_probe s next rest t
  · intro n mayStop
    exact Probe.restores_round (s.allRestore_roundProbes n) (restores_probe s next) mayStop rest t
  · intro hfits
    have hmirrors := mirrors_probe s hfits
    have hnested := nested_outputs next t.output
    refine ⟨hmirrors rest t hnested, ?_⟩
    intro n mayStop
    obtain ⟨steps, hsteps⟩ := s.exists_steps_of_roundProbes n
    obtain ⟨r, hr, -⟩ := bringsBack_round s.enough hsteps (forward_continuation s next) hmirrors
      mayStop rest hnested
    exact ⟨r, hr⟩

/-- At the end of a branch that has given out a `b` behind an `a`, and is replaced by an `x`: in
front of the word `cd` a `c` remains to be matched. -/
theorem trail_after_probe_of_branch :
  let next : Next := close ⟨1, some [0x78], 1, true⟩ (seq [.leaf (.byte 0x63) .once] done)
  let t : Trail := ⟨[0x61, 0x62], .none⟩
  let found : Path := ⟨[0x64], [0x63, 0x78, 0x61], Captures.none.put 1 [0x78]⟩
  next.Fits t.output.length ∧
    ∃ r, next.probe (.untilWordEnd .empty) [0x63, 0x64] t = some (r, t) ∧ r.found = some found
  := by
  intro next t found
  have hfits : next.Fits t.output.length := ⟨by decide, trivial⟩
  obtain ⟨r, hr, ho⟩ :=
    ((trail_after_probe (.untilWordEnd .empty) next [0x63, 0x64] t).2.2 hfits).1
  exact ⟨hfits, r, hr, congrArg Outcome.found ho⟩

end Next

/-- The path along a pattern is the one that is found with a single trail. -/
theorem Pattern.longestPath?_eq_found (pattern : Pattern) (lexicon : Lexicon) (word : Bytes) :
  ∃ r, (Next.seq pattern.nodes .done).probe (.untilWordEnd lexicon) word .start =
      some (r, .start) ∧
    r.found = pattern.longestPath? lexicon word
  := by
  have hfits : (Next.seq pattern.nodes .done).Fits Trail.start.output.length := trivial
  obtain ⟨r, hr, ho⟩ := Next.mirrors_probe (.untilWordEnd lexicon) hfits word .start trivial
  exact ⟨r, hr, congrArg Outcome.found ho⟩

end Respell
