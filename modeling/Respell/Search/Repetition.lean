import Respell.Pattern.Reps
import Respell.Search.Outcome

/-!
# Repeated steps

A group or a class is repeated in rounds.  Each round tries all its steps, each followed
by the rest of the pattern if the repetition may stop there, and the next round starts at
the ending that came farthest.  Earlier choices are not taken back, but of all the rounds
after which the rest of the pattern could follow the best one is kept.
-/

namespace Respell

/-- The end of a round.  If the repetition may stop, the search goes on with the rest of
the pattern; in any case the place is an ending of the round. -/
def endRound (mayStop : Bool) (k : Continuation) : Continuation := fun p =>
  let o := if mayStop then k p else .fail
  ⟨o.found, some ⟨p, (o.found.map Path.left).getD p.left⟩ :: o.endings⟩

/-- One round from a path: all steps, each followed by the end of the round. -/
def round (enough : Path → Bool) (steps : List Step) (mayStop : Bool) (k : Continuation) :
    Continuation := fun p =>
  explore enough (fun step => step (endRound mayStop k) p) steps .fail

/-- The rounds after the first `count`, with the best outcome of those.  A round that takes
nothing is the last one, and counts as all that are still missing. -/
def rounds (enough : Path → Bool) (steps : List Step) (reps : Reps) (k : Continuation)
    (count : Nat) (best : Outcome) (p : Path) : Outcome :=
  if reps.allowsMore count then
    let mayStop : Bool := reps.least ≤ count + 1
    let o := round enough steps mayStop k p
    let best := best.orRather o.outside
    if best.satisfies enough then best
    else
      match o.ending? with
      | none => best
      | some e =>
        if e.path.left < p.left then rounds enough steps reps k (count + 1) best e.path
        else if mayStop then best
        else best.orRather (k e.path)
  else best
  termination_by p.left

/-- As many rounds as the bounds allow. -/
def repeated (enough : Path → Bool) (steps : List Step) (reps : Reps) : Step := fun k p =>
  rounds enough steps reps k 0 (if reps.least = 0 then k p else .fail) p

end Respell
