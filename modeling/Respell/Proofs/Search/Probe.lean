import Respell.Match

/-!
# Searching with one trail

A search may keep a single trail, the output and the captures of the path that it explores at the
moment, instead of a path for each place that it comes to.  It writes on the trail when it goes on
and takes back what it wrote when it returns.  The end of a branch is marked by the length of the
output in front of the branch, and what the branch has given out is cut off there.

A probe goes on from what is left of the word with the trail that leads there.  It brings back what
it found and the trail as it leaves it, or nothing at all when a mark is not within the output.
-/

namespace Respell

/-- What was given out and captured on the way that is explored. -/
structure Trail where
  output : Bytes
  captures : Captures Bytes
  deriving DecidableEq

namespace Trail

/-- In front of a word. -/
def start : Trail := ⟨[], .none⟩

/-- Some more text is given out. -/
def give (t : Trail) (text : Bytes) : Trail :=
  { t with output := t.output ++ text }

/-- Only the output in front of a mark is kept. -/
def truncate (t : Trail) (mark : Nat) : Trail :=
  { t with output := t.output.take mark }

/-- A text is captured under a number, if there is a place for it. -/
def put (t : Trail) (number : Nat) (text : Bytes) : Trail :=
  { t with captures := t.captures.put number text }

/-- What was in the place for a number before, if there is one, is put back. -/
def putBack (t : Trail) (number : Nat) : Option (Option Bytes) → Trail
  | none => t
  | some previous => { t with captures := t.captures.setIfInBounds number previous }

/-- The path that the trail leads along, with what is left of the word there. -/
def path (t : Trail) (rest : Bytes) : Path := ⟨rest, t.output.reverse, t.captures⟩

end Trail

/-- A place where a round of a repetition can end: what is left of the word, what the round gives
out, and the captures there.  When the rest of the pattern was tried from there, `reach` is how
much the best complete path leaves unread. -/
structure Exit where
  rest : Bytes
  text : Bytes
  captures : Captures Bytes
  reach : Option Nat
  deriving DecidableEq

/-- How much is left unread at best. -/
def Exit.left (e : Exit) : Nat :=
  match e.reach with
  | none => e.rest.length
  | some reach => min reach e.rest.length

/-- The best complete path that was found, and for each repetition under way, from the inside out,
the best exit of its current round. -/
structure Probed where
  found : Option Path
  exits : List (Option Exit)
  deriving DecidableEq

namespace Probed

/-- Nothing is found. -/
def fail : Probed := ⟨none, []⟩

/-- The best exits of two probes, repetition by repetition; the first probe wins ties. -/
def joinExits : List (Option Exit) → List (Option Exit) → List (Option Exit)
  | [], es => es
  | ds, [] => ds
  | d :: ds, e :: es => closest Exit.left d e :: joinExits ds es

/-- What two probes find together, where the first one wins ties. -/
def orElse (a b : Probed) : Probed :=
  ⟨closest Path.left a.found b.found, joinExits a.exits b.exits⟩

/-- What two probes find together, where the second one wins ties. -/
def orRather (a b : Probed) : Probed :=
  ⟨closest Path.left b.found a.found, joinExits a.exits b.exits⟩

/-- The best exit of the current round of the innermost repetition. -/
def exit? (r : Probed) : Option Exit := r.exits.headD none

/-- What was found as it is seen from outside the innermost repetition. -/
def outside (r : Probed) : Probed := ⟨r.found, r.exits.tail⟩

/-- A round that has one exit, from which this was found. -/
def exiting (r : Probed) (rest text : Bytes) (captures : Captures Bytes) : Probed :=
  ⟨r.found, some ⟨rest, text, captures, r.found.map Path.left⟩ :: r.exits⟩

/-- The path that was found is good enough to stop at. -/
def satisfies (r : Probed) (enough : Path → Bool) : Bool := r.found.any enough

end Probed

/-- How to go on from what is left of a word with a trail. -/
abbrev Probe := Bytes → Trail → Option (Probed × Trail)

/-- A branch that was entered: the number of its group, its replacement, how much had been given out
in front of it, and whether the repetition may stop behind it. -/
structure Entered where
  number : Nat
  replacement : Option Bytes
  mark : Nat
  mayStop : Bool

namespace Probe

/-- The way is complete. -/
def done : Probe := fun rest t => some (⟨some (t.path rest), []⟩, t)

/-- Only if the repetition may stop the probe goes on. -/
def provided (mayStop : Bool) (k : Probe) : Probe := fun rest t =>
  if mayStop then k rest t else some (.fail, t)

/-- A text is given out, and taken back afterwards. -/
def giving (text : Bytes) (k : Probe) : Probe := fun rest t =>
  (k rest (t.give text)).map fun (r, u) => (r, u.truncate t.output.length)

/-- Probes the alternatives one after the other, until what was found is good enough. -/
def explore {α : Type} (enough : Path → Bool) (probe : α → Trail → Option (Probed × Trail)) :
    List α → Probed → Trail → Option (Probed × Trail)
  | [], best, t => some (best, t)
  | a :: as, best, t =>
    (probe a t).bind fun (r, u) =>
      let best := best.orElse r
      if best.satisfies enough then some (best, u) else explore enough probe as best u

/-- The end of the innermost branch.  What it has given out is cut off, the replacement is given
out and captured instead, and in the end everything is put back. -/
def close (b : Entered) (k : Probe) : Probe := fun rest t =>
  if b.mark ≤ t.output.length then
    let rendered := t.output.drop b.mark
    let text := b.replacement.getD rendered
    let previous := t.captures[b.number]?
    (k.provided b.mayStop rest (((t.truncate b.mark).give text).put b.number text)).map
      fun (r, u) =>
        (r.exiting rest text u.captures,
          ((u.putBack b.number previous).truncate b.mark).give rendered)
  else none

/-- A class member in a round: its text is taken and its replacement given out. -/
def member (casing : Casing) (m : Member) (mayStop : Bool) (k : Probe) : Probe := fun rest t =>
  if casing.leads m.text rest then
    let after := rest.drop m.text.length
    ((k.giving m.replacement).provided mayStop after t).map fun (r, u) =>
      (r.exiting after m.replacement u.captures, u)
  else some (.fail, t)

/-- One round: all steps, each of which ends the round. -/
def round (enough : Path → Bool) (steps : List (Bool → Probe → Probe)) (mayStop : Bool)
    (k : Probe) : Probe := fun rest =>
  explore enough (fun step => step mayStop k rest) steps .fail

/-- The rounds after the first `count`, with the best of what was found before.  The trail goes on
along the exit of each round. -/
def rounds (enough : Path → Bool) (steps : List (Bool → Probe → Probe)) (reps : Reps) (k : Probe)
    (count : Nat) (best : Probed) (rest : Bytes) (t : Trail) : Option (Probed × Trail) :=
  if reps.allowsMore count then
    let mayStop : Bool := reps.least ≤ count + 1
    (round enough steps mayStop k rest t).bind fun (r, u) =>
      let best := best.orRather r.outside
      if best.satisfies enough then some (best, u)
      else
        match r.exit? with
        | none => some (best, u)
        | some e =>
          let onward := { u.give e.text with captures := e.captures }
          if e.rest.length < rest.length then
            rounds enough steps reps k (count + 1) best e.rest onward
          else if mayStop then some (best, onward)
          else (k e.rest onward).map fun (r, v) => (best.orRather r, v)
  else some (best, t)
  termination_by rest.length

/-- As many rounds as the bounds allow.  In the end the trail is cut off where the first round
began, and the captures from there are put back. -/
def repeated (enough : Path → Bool) (steps : List (Bool → Probe → Probe)) (reps : Reps)
    (k : Probe) : Probe := fun rest t =>
  (k.provided (reps.least = 0) rest t).bind fun (best, u) =>
    (rounds enough steps reps k 0 best rest u).map fun (r, v) =>
      (r, { v.truncate t.output.length with captures := t.captures })

end Probe

/-! ### Probes along a pattern -/

namespace Search

/-- A step that takes some of the word is repeated as often as the bounds and the word allow.
Each number of repetitions is tried, the greatest first. -/
def probeDownFromMost (s : Search) (step? : Path → Option Path) (reps : Reps) (k : Probe) :
    Probe := fun rest =>
  let paths := (Path.iterates step? (reps.most.getD rest.length) (.start rest)).drop reps.least
  Probe.explore s.enough (fun p => k.giving p.output p.rest) paths.reverse .fail

/-- The rounds of the class at an id, one for each member. -/
def memberProbes (s : Search) (id : ClassId) : List (Bool → Probe → Probe) :=
  match s.lexicon.get? id with
  | none => []
  | some c => c.members.map (Probe.member c.casing)

/-- The probe of a leaf. -/
def probeLeaf (s : Search) (reps : Reps) : Leaf → Probe → Probe
  | .byte b =>
    s.probeDownFromMost (Path.copyByte? fun c => Casing.folded.key b = Casing.folded.key c) reps
  | .set members => s.probeDownFromMost (Path.copyByte? members.contains) reps
  | .literal text replacement =>
    if text.isEmpty then Probe.giving replacement
    else s.probeDownFromMost (Path.replaceText? text replacement) reps
  | .memberOf id => Probe.repeated s.enough (s.memberProbes id) reps
  | .wordEnd => fun k rest t =>
    if rest.isEmpty || reps.least = 0 then k rest t else some (.fail, t)
  | .remainder => fun k rest t =>
    (k.giving rest [] t).bind fun (all, u) =>
      if all.found.isNone && reps.least = 0 then
        (k rest u).map fun (r, v) => (all.orElse r, v)
      else some (all, u)

mutual

/-- The probe of a node. -/
def probeNode (s : Search) : Node → Probe → Probe
  | .leaf content reps => s.probeLeaf reps content
  | .group number branches reps => Probe.repeated s.enough (s.branchProbes number branches) reps

/-- The probe of a chain: the nodes one after the other. -/
def probeChain (s : Search) : List Node → Probe → Probe
  | [] => fun k => k
  | n :: ns => fun k => s.probeNode n (s.probeChain ns k)

/-- A branch of the group with the given number in a round: its nodes one after the other, and
then the end of the branch. -/
def branchProbe (s : Search) (number : Nat) : Branch Node → Bool → Probe → Probe
  | ⟨nodes, replacement⟩ => fun mayStop k rest t =>
    s.probeChain nodes (k.close ⟨number, replacement, t.output.length, mayStop⟩) rest t

/-- The branches of the group with the given number. -/
def branchProbes (s : Search) (number : Nat) : List (Branch Node) → List (Bool → Probe → Probe)
  | [] => []
  | b :: bs => s.branchProbe number b :: s.branchProbes number bs

end

theorem branchProbe_eq (s : Search) (number : Nat) (b : Branch Node) :
  s.branchProbe number b = fun mayStop k rest t =>
    s.probeChain b.nodes (k.close ⟨number, b.replacement, t.output.length, mayStop⟩) rest t
  := by
  cases b
  rw [branchProbe]

theorem branchProbes_eq_map (s : Search) (number : Nat) (branches : List (Branch Node)) :
  s.branchProbes number branches = branches.map (s.branchProbe number)
  := by
  induction branches with
  | nil => rw [branchProbes, List.map_nil]
  | cons b bs ih => rw [branchProbes, List.map_cons, ih]

/-- The steps of one round of a node, which are none unless it is repeated in rounds. -/
def roundProbes (s : Search) : Node → List (Bool → Probe → Probe)
  | .leaf (.memberOf id) _ => s.memberProbes id
  | .leaf _ _ => []
  | .group number branches _ => s.branchProbes number branches

end Search

/-- What remains to be matched: the rest of a chain, or the end of a branch that was entered. -/
inductive Next where
  | done
  | seq (nodes : List Node) (next : Next)
  | close (branch : Entered) (next : Next)

/-- The probe of all that remains. -/
def Next.probe (s : Search) : Next → Probe
  | done => Probe.done
  | seq nodes next => s.probeChain nodes (next.probe s)
  | close b next => (next.probe s).close b

end Respell
