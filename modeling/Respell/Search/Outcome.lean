import Respell.Search.Path

/-!
# Outcomes

What a search brings back from a path is the best complete path that continues it.  While
repetitions are under way it also brings back, for each of them, the best place where its
current round can end; the next round starts there.
-/

namespace Respell

/-- A place where one round of a repetition can end, and how much the best complete path
through it leaves unread; if there is none, how much is unread at the place itself. -/
structure Ending where
  path : Path
  left : Nat
  deriving DecidableEq

/-- The best complete path that was found, and for each repetition under way, from the
inside out, the best ending of its current round.  A list that is too short lacks the
endings of the outer repetitions. -/
structure Outcome where
  found : Option Path
  endings : List (Option Ending)
  deriving DecidableEq

namespace Outcome

/-- Nothing is found. -/
def fail : Outcome := ⟨none, []⟩

/-- The path is complete. -/
def done (p : Path) : Outcome := ⟨some p, []⟩

/-- The best endings of two searches, repetition by repetition; the first search wins
ties. -/
def joinEndings : List (Option Ending) → List (Option Ending) → List (Option Ending)
  | [], es => es
  | ds, [] => ds
  | d :: ds, e :: es => closest Ending.left d e :: joinEndings ds es

/-- What two searches find together.  Of equally good paths the first search has the one
to keep. -/
def orElse (a b : Outcome) : Outcome :=
  ⟨closest Path.left a.found b.found, joinEndings a.endings b.endings⟩

/-- What two searches find together.  Of equally good paths the second search has the one
to keep. -/
def orRather (a b : Outcome) : Outcome :=
  ⟨closest Path.left b.found a.found, joinEndings a.endings b.endings⟩

/-- The best ending of the current round of the innermost repetition. -/
def ending? (o : Outcome) : Option Ending := o.endings.headD none

/-- The outcome as it is seen from outside the innermost repetition. -/
def outside (o : Outcome) : Outcome := ⟨o.found, o.endings.tail⟩

/-- The path that was found is good enough to stop at. -/
def satisfies (o : Outcome) (enough : Path → Bool) : Bool := o.found.any enough

end Outcome

/-- How to go on from a path. -/
abbrev Continuation := Path → Outcome

/-- A way to move on along a path and then go on from there. -/
abbrev Step := Continuation → Continuation

/-- Searches the alternatives one after the other, until what was found is good enough. -/
def explore {α : Type} (enough : Path → Bool) (search : α → Outcome) :
    List α → Outcome → Outcome
  | [], best => best
  | a :: as, best =>
    let best := best.orElse (search a)
    if best.satisfies enough then best else explore enough search as best

end Respell
