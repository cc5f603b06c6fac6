import Respell.Proofs.Search.Comparison
import Respell.Proofs.Search.Completeness
import Respell.Proofs.Search.Restored

/-!
# Probes mirror searches

Where a search follows a path of its own to each place, a probe writes on the trail that it was
given.  The trail that leads to a place determines the path, so a probe and a search can be
compared from every place: the probe returns with the trail, and brings back what the search does.

An exit has only the output of its own round, as the trail goes on along it from where the round
began.  An ending has a whole path.  So the outputs in front of all the rounds under way are needed
to compare the two.  Each of them is in front of the output of the trail, as long as nothing
that was given out before a round is taken back in it.
-/

namespace Respell

/-! ### Outcomes of probes -/

/-- The ending of a round at an exit, when `output` had been given out in front of the round. -/
def Exit.ending (output : Bytes) (e : Exit) : Ending :=
  ⟨⟨e.rest, (output ++ e.text).reverse, e.captures⟩, e.left⟩

namespace Probed

/-- The endings at exits, when `outputs` had been given out in front of the rounds under way. -/
def endings (outputs : List Bytes) (exits : List (Option Exit)) : List (Option Ending) :=
  List.zipWith (fun output => Option.map (Exit.ending output)) outputs exits

/-- What was found, as an outcome. -/
def outcome (outputs : List Bytes) (r : Probed) : Outcome :=
  ⟨r.found, endings outputs r.exits⟩

variable {outputs : List Bytes} {a b : Probed}

theorem endings_joinExits (outputs : List Bytes) (ds es : List (Option Exit)) :
  endings outputs (joinExits ds es) = Outcome.joinEndings (endings outputs ds) (endings outputs es)
  := by
  induction outputs generalizing ds es with
  | nil => rfl
  | cons output outputs ih =>
      cases ds with
      | nil => rfl
      | cons d ds =>
          cases es with
          | nil => rfl
          | cons e es =>
              have hclosest := @closest_map Ending Ending.left Exit (Exit.ending output) d e
              exact congr (congrArg List.cons hclosest.symm) (ih ds es)

theorem outcome_fail :
  fail.outcome outputs = .fail
  := congrArg (Outcome.mk none) List.zipWith_nil_right

theorem outcome_orElse :
  (a.orElse b).outcome outputs = (a.outcome outputs).orElse (b.outcome outputs)
  := congrArg (Outcome.mk _) (endings_joinExits outputs a.exits b.exits)

theorem outcome_orRather :
  (a.orRather b).outcome outputs = (a.outcome outputs).orRather (b.outcome outputs)
  := congrArg (Outcome.mk _) (endings_joinExits outputs a.exits b.exits)

theorem satisfies_outcome (enough : Path → Bool) :
  (a.outcome outputs).satisfies enough = a.satisfies enough
  := rfl

theorem outcome_outside (output : Bytes) :
  a.outside.outcome outputs = (a.outcome (output :: outputs)).outside
  := by
  obtain ⟨found, exits⟩ := a
  cases exits with
  | nil => exact congrArg (Outcome.mk found) List.zipWith_nil_right
  | cons e es => rfl

theorem ending?_outcome (output : Bytes) :
  (a.outcome (output :: outputs)).ending? = a.exit?.map (Exit.ending output)
  := by
  obtain ⟨found, exits⟩ := a
  cases exits with
  | nil => rfl
  | cons e es => rfl

/-- The end of a round at an exit.  Nothing that is found from there leaves more than is unread
there. -/
theorem outcome_exiting {K : Continuation} (hK : K.Forward) (mayStop : Bool) {p : Path}
    {output rest text : Bytes} {captures : Captures Bytes}
    (hp : p = ⟨rest, (output ++ text).reverse, captures⟩)
    (ho : a.outcome outputs = if mayStop then K p else .fail) :
  (a.exiting rest text captures).outcome (output :: outputs) = endRound mayStop K p
  := by
  have hle : ∀ q ∈ a.found, q.left ≤ p.left := by
    have hfound : a.found = (if mayStop then K p else .fail).found := congrArg Outcome.found ho
    rw [hfound]
    exact forward_endRound hK mayStop p
  subst hp
  rw [endRound, ← ho]
  obtain ⟨found, exits⟩ := a
  cases found with
  | none => rfl
  | some q =>
      have hmin : min q.left rest.length = q.left := Nat.min_eq_left (hle q rfl)
      have hending : Exit.ending output ⟨rest, text, captures, some q.left⟩ =
          ⟨⟨rest, (output ++ text).reverse, captures⟩, q.left⟩ := congrArg (Ending.mk _) hmin
      exact congrArg (fun e => Outcome.mk (some q) (some e :: _)) hending

end Probed

/-! ### Trails and paths -/

namespace Trail

variable (t : Trail) (rest : Bytes)

theorem path_give (n : Nat) (text : Bytes) :
  (t.give text).path (rest.drop n) = (t.path rest).advance n text
  := by
  rw [path, give, List.reverse_append]
  rfl

/-- Behind a branch a trail leads along the path that leaves the branch. -/
theorem path_close {output : Bytes} (h : output <+: t.output) (number : Nat)
    (replacement : Option Bytes) :
  let text := replacement.getD (t.output.drop output.length)
  (((t.truncate output.length).give text).put number text).path rest =
    (t.path rest).leaveBranch output.reverse number replacement
  := by
  intro text
  obtain ⟨rendered, hrendered⟩ := h
  have hdrop : t.output.drop output.length = rendered := by
    rw [← hrendered, List.drop_left]
  have htake : t.output.take output.length = output := by
    rw [← hrendered, List.take_left]
  have hgiven : ((t.path rest).given.take
      ((t.path rest).given.length - output.reverse.length)).reverse = rendered := by
    rw [path, ← hrendered, List.length_reverse, List.length_reverse, List.length_append,
      Nat.add_sub_cancel_left, List.reverse_append, ← List.length_reverse, List.take_left,
      List.reverse_reverse]
  rw [Path.leaveBranch, hgiven, path, put, give, truncate, htake, List.reverse_append]
  dsimp only [text]
  rw [hdrop]
  rfl

end Trail

/-- Each output is in front of the next one, from the inside out. -/
def Nested : Bytes → List Bytes → Prop
  | _, [] => True
  | output, outer :: outputs => outer <+: output ∧ Nested outer outputs

theorem Nested.append {output : Bytes} {outputs : List Bytes} (h : Nested output outputs)
    (text : Bytes) :
  Nested (output ++ text) outputs
  := by
  cases outputs with
  | nil => exact trivial
  | cons outer outputs => exact ⟨h.1.trans (List.prefix_append _ _), h.2⟩

/-! ### Probes that mirror searches -/

/-- A probe returned with the trail `t`, and what it brought back is the outcome `o`. -/
def BringsBack (outputs : List Bytes) (t : Trail) (o : Outcome)
    (returned : Option (Probed × Trail)) : Prop :=
  ∃ r, returned = some (r, t) ∧ r.outcome outputs = o

/-- The probe brings back the trail and what the continuation does from the path of the trail, when
`outputs` were given out in front of the rounds under way. -/
def Probe.Mirrors (outputs : List Bytes) (k : Probe) (K : Continuation) : Prop :=
  ∀ rest t, Nested t.output outputs → BringsBack outputs t (K (t.path rest)) (k rest t)

section Mirrors

variable {outputs : List Bytes} {k : Probe} {K : Continuation} {t : Trail}

theorem bringsBack_fail :
  BringsBack outputs t .fail (some (.fail, t))
  := ⟨.fail, rfl, Probed.outcome_fail⟩

theorem mirrors_done :
  Probe.done.Mirrors [] Outcome.done
  := fun _ _ _ => ⟨_, rfl, rfl⟩

namespace Probe.Mirrors

theorem provided (h : k.Mirrors outputs K) (mayStop : Bool) :
  (k.provided mayStop).Mirrors outputs (fun p => if mayStop then K p else .fail)
  := by
  intro rest t ht
  rw [Probe.provided]
  split
  · apply h rest t ht
  · apply bringsBack_fail

theorem giving (h : k.Mirrors outputs K) (rest text : Bytes) (ht : Nested t.output outputs) :
  BringsBack outputs t (K ((t.give text).path rest)) (k.giving text rest t)
  := by
  obtain ⟨r, hr, ho⟩ := h rest (t.give text) (ht.append text)
  refine ⟨r, ?_, ho⟩
  rw [Probe.giving, hr, Option.map_some]
  exact congrArg (fun u => some (r, u)) (t.truncate_give text)

end Probe.Mirrors

theorem bringsBack_explore {α β : Type} (enough : Path → Bool)
    {probe : α → Trail → Option (Probed × Trail)} {search : β → Outcome} {as : List α} {bs : List β}
    (h : List.Forall₂ (fun a b => BringsBack outputs t (search b) (probe a t)) as bs)
    (best : Probed) :
  BringsBack outputs t (explore enough search bs (best.outcome outputs))
    (Probe.explore enough probe as best t)
  := by
  induction h generalizing best with
  | nil => exact ⟨best, rfl, rfl⟩
  | @cons a b as bs hab _ ih =>
      obtain ⟨r, hr, ho⟩ := hab
      rw [Probe.explore, hr, Option.bind_some, explore, ← ho, ← Probed.outcome_orElse]
      dsimp only
      rw [Probed.satisfies_outcome]
      split
      · exact ⟨_, rfl, rfl⟩
      · apply ih

/-- The end of a branch, in front of which `output` had been given out. -/
theorem bringsBack_close (hK : K.Forward) (h : k.Mirrors outputs K) (b : Entered) {output : Bytes}
    (hmark : b.mark = output.length) (rest : Bytes) (ht : Nested t.output (output :: outputs)) :
  BringsBack (output :: outputs) t
    (endRound b.mayStop K ((t.path rest).leaveBranch output.reverse b.number b.replacement))
    (k.close b rest t)
  := by
  obtain ⟨hfront, hnested⟩ := ht
  have hpath := t.path_close rest hfront b.number b.replacement
  have hcut : t.output.take output.length = output :=
    (List.prefix_iff_eq_take.mp hfront).symm
  rw [Probe.close, hmark, if_pos hfront.length_le]
  dsimp only at hpath ⊢
  generalize b.replacement.getD (t.output.drop output.length) = text at hpath ⊢
  have hentered : Nested (((t.truncate output.length).give text).put b.number text).output
      outputs := by
    change Nested (t.output.take output.length ++ text) outputs
    rw [hcut]
    apply hnested.append
  obtain ⟨r, hr, ho⟩ := h.provided b.mayStop rest _ hentered
  have hback := t.undo_close hfront.length_le b.number text
  rw [hr, Option.map_some]
  refine ⟨_, congrArg (fun u => some (_, u)) hback, ?_⟩
  rw [← hpath]
  apply Probed.outcome_exiting hK b.mayStop _ ho
  exact congrArg (fun output => Path.mk rest (output ++ text).reverse _) hcut

/-! ### Rounds -/

/-- In a round the probe of a step brings back what the step does when it is followed by the end
of the round. -/
def StepMirrors (probe : Bool → Probe → Probe) (step : Step) : Prop :=
  ∀ (mayStop : Bool) (outputs : List Bytes) (k : Probe) (K : Continuation), K.Forward →
    k.Mirrors outputs K → ∀ rest t, Nested t.output outputs →
      BringsBack (t.output :: outputs) t (step (endRound mayStop K) (t.path rest))
        (probe mayStop k rest t)

theorem stepMirrors_member (casing : Casing) (m : Member) :
  StepMirrors (Probe.member casing m) (Search.memberStep casing m)
  := by
  intro mayStop outputs k K hK h rest t ht
  rw [Probe.member, Search.memberStep]
  change BringsBack _ t (if casing.leads m.text rest then _ else _) _
  split
  · dsimp only
    have hgiven : BringsBack outputs t
        (if mayStop then K ((t.path rest).advance m.text.length m.replacement) else .fail)
        ((k.giving m.replacement).provided mayStop (rest.drop m.text.length) t) := by
      rw [Probe.provided]
      split
      · rw [← t.path_give]
        apply h.giving _ m.replacement ht
      · apply bringsBack_fail
    obtain ⟨r, hr, ho⟩ := hgiven
    rw [hr]
    refine ⟨_, rfl, Probed.outcome_exiting hK mayStop ?_ ho⟩
    rw [← t.path_give]
    rfl
  · apply bringsBack_fail

section Rounds

variable (enough : Path → Bool) {probes : List (Bool → Probe → Probe)} {steps : List Step}
  (hs : List.Forall₂ StepMirrors probes steps) (hK : K.Forward) (h : k.Mirrors outputs K)
include hs hK h

theorem bringsBack_round (mayStop : Bool) (rest : Bytes) (ht : Nested t.output outputs) :
  BringsBack (t.output :: outputs) t (round enough steps mayStop K (t.path rest))
    (Probe.round enough probes mayStop k rest t)
  := by
  have hall := hs.imp fun probe step hstep => hstep mayStop outputs k K hK h rest t ht
  have hround := bringsBack_explore enough hall .fail
  rwa [Probed.outcome_fail] at hround

/-- The rounds go on along the trail, behind all that was given out in front of them. -/
theorem bringsBack_rounds (reps : Reps) (count : Nat) (best : Probed) (rest : Bytes)
    (ht : Nested t.output outputs) :
  ∃ u, t.output <+: u.output ∧
    BringsBack outputs u (rounds enough steps reps K count (best.outcome outputs) (t.path rest))
      (Probe.rounds enough probes reps k count best rest t)
  := by
  induction hn : rest.length using Nat.strongRecOn generalizing count best rest t with
  | ind n ih =>
      obtain ⟨r, hr, ho⟩ :=
        bringsBack_round enough hs hK h (decide (reps.least ≤ count + 1)) rest ht
      rw [rounds, Probe.rounds]
      split
      · dsimp only
        rw [hr, Option.bind_some, ← ho, ← Probed.outcome_outside, ← Probed.outcome_orRather,
          Probed.ending?_outcome]
        dsimp only
        generalize best.orRather r.outside = best
        rw [Probed.satisfies_outcome]
        split
        · exact ⟨t, List.prefix_rfl, best, rfl, rfl⟩
        · cases r.exit? with
          | none => exact ⟨t, List.prefix_rfl, best, rfl, rfl⟩
          | some e =>
              -- The trail is not put back before the last round, but it only grows.
              let onward : Trail := { t.give e.text with captures := e.captures }
              have hfront : t.output <+: onward.output := List.prefix_append _ _
              have honward : Nested onward.output outputs := ht.append e.text
              rw [Option.map_some]
              dsimp only
              change ∃ u, _ ∧ BringsBack outputs u (if e.rest.length < rest.length then _ else _) _
              split
              · next hlt =>
                obtain ⟨u, hu, hback⟩ := ih _ (hn ▸ hlt) (count + 1) best e.rest honward rfl
                exact ⟨u, hfront.trans hu, hback⟩
              · split
                · exact ⟨onward, hfront, best, rfl, rfl⟩
                · obtain ⟨r', hr', ho'⟩ := h e.rest onward honward
                  refine ⟨onward, hfront, best.orRather r', ?_, ?_⟩
                  · exact congrArg (Option.map _) hr'
                  · rw [Probed.outcome_orRather, ho']
                    rfl
      · exact ⟨t, List.prefix_rfl, best, rfl, rfl⟩

theorem mirrors_repeated (reps : Reps) :
  (Probe.repeated enough probes reps k).Mirrors outputs (repeated enough steps reps K)
  := by
  intro rest t ht
  obtain ⟨best, hbest, ho⟩ := h.provided (decide (reps.least = 0)) rest t ht
  obtain ⟨u, ⟨more, hmore⟩, r, hr, hrounds⟩ :=
    bringsBack_rounds enough hs hK h reps 0 best rest ht
  refine ⟨r, ?_, ?_⟩
  · rw [Probe.repeated, hbest, Option.bind_some]
    dsimp only
    rw [hr, Option.map_some]
    dsimp only
    rw [Trail.truncate, ← hmore, List.take_left]
  · rw [hrounds, ho, repeated]
    simp only [decide_eq_true_eq]

end Rounds

/-! ### Probes along a pattern -/

/-- Two ways to make something of what follows mirror each other when they do so with whatever
follows. -/
def Mirrored (probe : Probe → Probe) (step : Step) : Prop :=
  ∀ (outputs : List Bytes) (k : Probe) (K : Continuation), K.Forward → k.Mirrors outputs K →
    (probe k).Mirrors outputs (step K)

/-- A step goes on from a path in the same way whatever was given out in front of it. -/
def Steady (step? : Path → Option Path) : Prop :=
  ∀ (t : Trail) (p q : Path), q = (t.give p.output).path p.rest →
    Option.Rel (fun p q => q = (t.give p.output).path p.rest) (step? p) (step? q)

theorem steady_copyByte (accepts : UInt8 → Bool) :
  Steady (Path.copyByte? accepts)
  := by
  rintro t ⟨rest, given, captures⟩ q rfl
  cases rest with
  | nil => exact Option.Rel.none
  | cons b rest =>
      simp only [Path.copyByte?, Trail.path]
      split
      · apply Option.Rel.some
        simp [Trail.give, Path.output]
      · exact Option.Rel.none

theorem steady_replaceText (text replacement : Bytes) :
  Steady (Path.replaceText? text replacement)
  := by
  rintro t p q rfl
  have hrest : ((t.give p.output).path p.rest).rest = p.rest := rfl
  rw [Path.replaceText?, Path.replaceText?, hrest]
  split
  · apply Option.Rel.some
    simp [Trail.give, Trail.path, Path.output, Path.advance]
  · exact Option.Rel.none

namespace Search

variable (s : Search)

theorem mirrored_downFromMost {step? : Path → Option Path} (hstep : Steady step?) (reps : Reps) :
  Mirrored (s.probeDownFromMost step? reps) (s.downFromMost step? reps)
  := by
  intro outputs k K hK h rest t ht
  have hstart : t.path rest = (t.give (Path.start rest).output).path rest := by
    simp [Trail.give, Path.start, Path.output]
  have hiterates := Path.forall₂_iterates (hstep t) (reps.most.getD rest.length) hstart
  have hpaths := List.forall₂_reverse_iff.mpr (List.forall₂_drop reps.least hiterates)
  have hall := hpaths.imp fun p q hpq => hpq ▸ h.giving p.rest p.output ht
  have hexplore := bringsBack_explore s.enough hall .fail
  rwa [Probed.outcome_fail] at hexplore

theorem stepMirrors_members (id : ClassId) :
  List.Forall₂ StepMirrors (s.memberProbes id) (s.classSteps id)
  := by
  rw [memberProbes, classSteps]
  cases s.lexicon.get? id with
  | none => exact .nil
  | some c =>
      apply forall₂_map_map
      intro m _
      apply stepMirrors_member

theorem mirrored_leaf (reps : Reps) (content : Leaf) :
  Mirrored (s.probeLeaf reps content) (s.leaf reps content)
  := by
  cases content with
  | byte b => exact s.mirrored_downFromMost (steady_copyByte _) reps
  | set members => exact s.mirrored_downFromMost (steady_copyByte _) reps
  | literal text replacement =>
      rw [probeLeaf, leaf, replaceText]
      split
      · intro outputs k K hK h rest t ht
        dsimp only
        rw [← t.path_give]
        apply h.giving rest replacement ht
      · exact s.mirrored_downFromMost (steady_replaceText text replacement) reps
  | memberOf id =>
      intro outputs k K hK h
      apply mirrors_repeated s.enough (s.stepMirrors_members id) hK h
  | wordEnd =>
      intro outputs k K hK h rest t ht
      dsimp only [probeLeaf, leaf]
      change BringsBack outputs t (if rest.isEmpty || _ then _ else _) _
      split
      · apply h rest t ht
      · apply bringsBack_fail
  | remainder =>
      intro outputs k K hK h rest t ht
      dsimp only [probeLeaf, leaf]
      have hall := t.path_give rest rest.length rest
      rw [List.drop_length] at hall
      obtain ⟨all, hr, ho⟩ := h.giving [] rest ht
      rw [hr, Option.bind_some]
      change BringsBack outputs t
        (let all := K ((t.path rest).advance rest.length rest)
          if all.found.isNone && reps.least = 0 then all.orElse (K (t.path rest)) else all) _
      rw [← hall, ← ho]
      dsimp only
      have hsame : (all.outcome outputs).found = all.found := rfl
      rw [hsame]
      split
      · obtain ⟨r, hr', ho'⟩ := h rest t ht
        rw [hr', ← ho', ← Probed.outcome_orElse]
        exact ⟨_, rfl, rfl⟩
      · exact ⟨all, rfl, rfl⟩

theorem mirrored_chain_of_nodes {nodes : List Node}
    (h : ∀ n ∈ nodes, Mirrored (s.probeNode n) (s.node n)) :
  Mirrored (s.probeChain nodes) (s.chain nodes)
  := by
  induction nodes with
  | nil => exact fun outputs k K hK hk => hk
  | cons n ns ih =>
      intro outputs k K hK hk
      have hforward := (s.sound_chain ns).forward (Ways.onward_chain _ ns) hK
      apply h n List.mem_cons_self _ _ _ hforward
      apply ih (fun m hm => h m (List.mem_cons_of_mem n hm)) _ _ _ hK hk

/-- A branch mirrors its step when its chain does. -/
theorem stepMirrors_branches {number : Nat} {branches : List (Branch Node)}
    (h : ∀ b ∈ branches, Mirrored (s.probeChain b.nodes) (s.chain b.nodes)) :
  List.Forall₂ StepMirrors (s.branchProbes number branches) (s.branchSteps number branches)
  := by
  rw [branchProbes_eq_map, branchSteps_eq_map]
  apply forall₂_map_map
  intro b hb mayStop outputs k K hK hk rest t ht
  rw [branchProbe_eq, branchStep_eq]
  have hclose : (k.close ⟨number, b.replacement, t.output.length, mayStop⟩).Mirrors
      (t.output :: outputs)
      fun q => endRound mayStop K (q.leaveBranch t.output.reverse number b.replacement) :=
    fun rest u hu =>
      bringsBack_close hK hk ⟨number, b.replacement, t.output.length, mayStop⟩ rfl rest hu
  have hforward : Continuation.Forward
      fun q => endRound mayStop K (q.leaveBranch t.output.reverse number b.replacement) :=
    fun q => forward_endRound hK mayStop (q.leaveBranch t.output.reverse number b.replacement)
  apply h b hb _ _ _ hforward hclose rest t ⟨List.prefix_rfl, ht⟩

theorem mirrored_node (n : Node) :
  Mirrored (s.probeNode n) (s.node n)
  := by
  induction n using Node.ind with
  | leaf content reps => apply s.mirrored_leaf
  | group number branches reps ih =>
      intro outputs k K hK h
      apply mirrors_repeated s.enough _ hK h
      exact s.stepMirrors_branches fun b hb => s.mirrored_chain_of_nodes (ih b hb)

theorem mirrored_chain (nodes : List Node) :
  Mirrored (s.probeChain nodes) (s.chain nodes)
  := s.mirrored_chain_of_nodes fun n _ => s.mirrored_node n

/-- The rounds of any node mirror steps. -/
theorem exists_steps_of_roundProbes (n : Node) :
  ∃ steps, List.Forall₂ StepMirrors (s.roundProbes n) steps
  := by
  rw [roundProbes.eq_def]
  split
  · exact ⟨_, s.stepMirrors_members _⟩
  · exact ⟨[], .nil⟩
  · exact ⟨_, s.stepMirrors_branches fun b _ => s.mirrored_chain b.nodes⟩

end Search

end Mirrors

end Respell
