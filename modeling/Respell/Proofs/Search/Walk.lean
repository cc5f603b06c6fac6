import Respell.Proofs.NamedClass.Finding
import Respell.Proofs.Search.Probe

/-!
# Searching by positions

A search may go by positions in the word instead of by what is left of it.  Then much has to be
taken care of that goes without saying otherwise: only what the word has can be cut out of it, sums
of positions and lengths must not run away, and nothing but the positions themselves tells that
a repetition comes to an end.

A walk goes on from a position with the trail that leads there.  It brings back nothing at all when
it cuts out a part that the word does not have, when a position or a count is more than one greater
than the length of the word, when a mark is not within the output, when a round that is not the
last one does not move on, and when there are more rounds than positions to begin them at.
-/

namespace Respell

/-- The end of a complete path: the position in the word, and the trail there. -/
structure Arrival where
  stop : Nat
  trail : Trail
  deriving DecidableEq

/-- A position where a round of a repetition can end, what the round gives out, and the captures
there.  When the rest of the pattern was tried from there, `reach` is the position that the best
complete path gets to. -/
structure Turn where
  stop : Nat
  text : Bytes
  captures : Captures Bytes
  reach : Option Nat
  deriving DecidableEq

/-- The position that is reached at best. -/
def Turn.rank (e : Turn) : Nat :=
  match e.reach with
  | none => e.stop
  | some reach => max reach e.stop

/-- Of two possible results the one that gets farther, and the first one when they get equally
far. -/
def farthest {α : Type} (reach : α → Nat) : Option α → Option α → Option α
  | none, b => b
  | some a, none => some a
  | some a, some b => if reach a < reach b then some b else some a

/-- The best complete path that was found, and for each repetition under way, from the inside out,
the best turn of its current round. -/
structure Walked where
  found : Option Arrival
  turns : List (Option Turn)
  deriving DecidableEq

namespace Walked

/-- Nothing is found. -/
def fail : Walked := ⟨none, []⟩

/-- The best turns of two walks, repetition by repetition; the first walk wins ties. -/
def joinTurns : List (Option Turn) → List (Option Turn) → List (Option Turn)
  | [], es => es
  | ds, [] => ds
  | d :: ds, e :: es => farthest Turn.rank d e :: joinTurns ds es

/-- What two walks find together, where the first one wins ties. -/
def orElse (a b : Walked) : Walked :=
  ⟨farthest Arrival.stop a.found b.found, joinTurns a.turns b.turns⟩

/-- What two walks find together, where the second one wins ties. -/
def orRather (a b : Walked) : Walked :=
  ⟨farthest Arrival.stop b.found a.found, joinTurns a.turns b.turns⟩

/-- The best turn of the current round of the innermost repetition. -/
def turn? (r : Walked) : Option Turn := r.turns.headD none

/-- What was found as it is seen from outside the innermost repetition. -/
def outside (r : Walked) : Walked := ⟨r.found, r.turns.tail⟩

/-- A round that has one turn, from which this was found. -/
def turning (r : Walked) (stop : Nat) (text : Bytes) (captures : Captures Bytes) : Walked :=
  ⟨r.found, some ⟨stop, text, captures, r.found.map Arrival.stop⟩ :: r.turns⟩

/-- The path that was found takes the whole word. -/
def isFull (r : Walked) (word : Bytes) : Bool := r.found.any (·.stop = word.length)

end Walked

/-- How to go on from a position with a trail. -/
abbrev Walk := Nat → Trail → Option (Walked × Trail)

namespace Walk

/-! ### Parts of a word -/

/-- What a word has from a position on. -/
def from? (word : Bytes) (pos : Nat) : Option Bytes :=
  if pos ≤ word.length then some (word.drop pos) else none

/-- The first `n` bytes. -/
def upTo? (s : Bytes) (n : Nat) : Option Bytes :=
  if n ≤ s.length then some (s.take n) else none

/-- A position or a count, which is at most one greater than the length of the word. -/
def within? (word : Bytes) (n : Nat) : Option Nat :=
  if n ≤ word.length + 1 then some n else none

/-- The parts of the given size one behind the other, as far as they are complete. -/
def chunks (size : Nat) (s : Bytes) : List Bytes :=
  if 0 < size ∧ size ≤ s.length then s.take size :: chunks size (s.drop size) else []
  termination_by s.length
  decreasing_by
    rw [List.length_drop]
    omega

/-- These parts, where they have a size. -/
def chunks? (size : Nat) (s : Bytes) : Option (List Bytes) :=
  if size = 0 then none else some (chunks size s)

/-! ### Ways to walk -/

/-- The way is complete. -/
def done : Walk := fun pos t => some (⟨some ⟨pos, t⟩, []⟩, t)

/-- Only if the repetition may stop the walk goes on. -/
def provided (mayStop : Bool) (k : Walk) : Walk := fun pos t =>
  if mayStop then k pos t else some (.fail, t)

/-- A text is given out, and taken back afterwards. -/
def giving (text : Bytes) (k : Walk) : Walk := fun pos t =>
  (k pos (t.give text)).map fun (r, u) => (r, u.truncate t.output.length)

/-- Walks along the alternatives one after the other, until the whole word is taken. -/
def explore (word : Bytes) {α : Type} (walk : α → Trail → Option (Walked × Trail)) :
    List α → Walked → Trail → Option (Walked × Trail)
  | [], best, t => some (best, t)
  | a :: as, best, t =>
    (walk a t).bind fun (r, u) =>
      let best := best.orElse r
      if best.isFull word then some (best, u) else explore word walk as best u

/-- All numbers of repetitions from the greatest to the least.  Each of them gives out a text and
gets to a position. -/
def downFromMost (word : Bytes) (available least : Nat) (leap? : Nat → Option (Bytes × Nat))
    (k : Walk) (t : Trail) : Option (Walked × Trail) :=
  if available < least then some (.fail, t)
  else
    explore word (fun n t => (leap? n).bind fun (text, next) => k.giving text next t)
      (List.range' least (available + 1 - least)).reverse .fail t

/-- Bytes that satisfy a condition are taken and given out as they are. -/
def bytes (word : Bytes) (accepts : UInt8 → Bool) (reps : Reps) (k : Walk) : Walk := fun pos t =>
  (from? word pos).bind fun rest =>
    (upTo? rest (min (reps.most.getD rest.length) rest.length)).bind fun front =>
      let leap? := fun n =>
        (upTo? rest n).bind fun text => (within? word (pos + n)).map fun next => (text, next)
      downFromMost word (front.takeWhile accepts).length reps.least leap? k t

/-- Copies of a text in any case are taken, and a replacement is given out for each.  The text
without bytes is replaced once, whatever the bounds are. -/
def literal (word text replacement : Bytes) (reps : Reps) (k : Walk) : Walk := fun pos t =>
  if text.isEmpty then k.giving replacement pos t
  else
    (from? word pos).bind fun rest =>
      (chunks? text.length rest).bind fun parts =>
        let parts := (reps.most.elim parts parts.take).takeWhile (Casing.folded.same text)
        let leap? := fun n =>
          (within? word (pos + n * text.length)).map fun next =>
            ((List.replicate n replacement).flatten, next)
        downFromMost word parts.length reps.least leap? k t

/-- The end of the innermost branch.  What it has given out is cut off, the replacement is given
out and captured instead, and in the end everything is put back. -/
def close (b : Entered) (k : Walk) : Walk := fun pos t =>
  if b.mark ≤ t.output.length then
    let rendered := t.output.drop b.mark
    let text := b.replacement.getD rendered
    let previous := t.captures[b.number]?
    (k.provided b.mayStop pos (((t.truncate b.mark).give text).put b.number text)).map
      fun (r, u) =>
        (r.turning pos text u.captures,
          ((u.putBack b.number previous).truncate b.mark).give rendered)
  else none

/-- A member that was found in a class, with its index there: its text is taken and its replacement
given out. -/
def member (word : Bytes) (c : NamedClass) (mayStop : Bool) (k : Walk) (pos : Nat)
    (x : Member × Nat) (t : Trail) : Option (Walked × Trail) :=
  c.members[x.2]?.bind fun m =>
    (within? word (pos + x.1.text.length)).bind fun next =>
      ((k.giving m.replacement).provided mayStop next t).map fun (r, u) =>
        (r.turning next m.replacement u.captures, u)

/-- The round of a class: one member after the other that leads what is left of the word. -/
def classRound (lexicon : Lexicon) (word : Bytes) (id : ClassId) (mayStop : Bool) (k : Walk) :
    Walk := fun pos t =>
  match lexicon.get? id with
  | none => some (.fail, t)
  | some c =>
    (from? word pos).bind fun rest =>
      explore word (member word c mayStop k pos) (c.foundFrom rest 0) .fail t

/-- The round of a group: one branch after the other. -/
def groupRound (word : Bytes) (branches : List (Bool → Walk → Walk)) (mayStop : Bool) (k : Walk) :
    Walk := fun pos =>
  explore word (fun branch => branch mayStop k pos) branches .fail

/-- The rounds after the first `count`, with the best of what was found before.  There are at most
as many of them as the budget says, and each of them but the last one moves on. -/
def rounds (word : Bytes) (round : Bool → Walk → Walk) (reps : Reps) (k : Walk)
    (budget count : Nat) (best : Walked) (pos : Nat) (t : Trail) : Option (Walked × Trail) :=
  if reps.allowsMore count then
    match budget with
    | 0 => none
    | budget + 1 =>
      (within? word (count + 1)).bind fun next =>
        let mayStop : Bool := reps.least ≤ next
        (round mayStop k pos t).bind fun (r, u) =>
          let best := best.orRather r.outside
          if best.isFull word then some (best, u)
          else
            match r.turn? with
            | none => some (best, u)
            | some e =>
              let onward := { u.give e.text with captures := e.captures }
              if e.stop = pos then
                if mayStop then some (best, onward)
                else (k pos onward).map fun (r, v) => (best.orRather r, v)
              else if pos < e.stop then rounds word round reps k budget next best e.stop onward
              else none
  else some (best, t)

/-- As many rounds as the bounds allow, and no more than one for each position that is left and one
behind the last. -/
def repeated (word : Bytes) (round : Bool → Walk → Walk) (reps : Reps) (k : Walk) : Walk :=
  fun pos t =>
  (k.provided (reps.least = 0) pos t).bind fun (best, u) =>
    (rounds word round reps k (word.length - pos + 1) 0 best pos u).map fun (r, v) =>
      (r, { v.truncate t.output.length with captures := t.captures })

end Walk

/-! ### Walks along a pattern -/

section Pattern

variable (lexicon : Lexicon) (word : Bytes)

/-- The walk of a leaf. -/
def walkLeaf (reps : Reps) : Leaf → Walk → Walk
  | .byte b => Walk.bytes word (fun c => Casing.folded.key b = Casing.folded.key c) reps
  | .set members => Walk.bytes word members.contains reps
  | .literal text replacement => Walk.literal word text replacement reps
  | .memberOf id => Walk.repeated word (Walk.classRound lexicon word id) reps
  | .wordEnd => fun k pos t =>
    if pos = word.length || reps.least = 0 then k pos t else some (.fail, t)
  | .remainder => fun k pos t =>
    (Walk.from? word pos).bind fun rest =>
      (k.giving rest word.length t).bind fun (all, u) =>
        if all.found.isNone && reps.least = 0 then
          (k pos u).map fun (r, v) => (all.orElse r, v)
        else some (all, u)

mutual

/-- The walk of a node. -/
def walkNode : Node → Walk → Walk
  | .leaf content reps => walkLeaf lexicon word reps content
  | .group number branches reps =>
    Walk.repeated word (Walk.groupRound word (branchWalks number branches)) reps

/-- The walk of a chain: the nodes one after the other. -/
def walkChain : List Node → Walk → Walk
  | [] => fun k => k
  | n :: ns => fun k => walkNode n (walkChain ns k)

/-- A branch of the group with the given number in a round: its nodes one after the other, and
then the end of the branch. -/
def branchWalk (number : Nat) : Branch Node → Bool → Walk → Walk
  | ⟨nodes, replacement⟩ => fun mayStop k pos t =>
    walkChain nodes (k.close ⟨number, replacement, t.output.length, mayStop⟩) pos t

/-- The branches of the group with the given number. -/
def branchWalks (number : Nat) : List (Branch Node) → List (Bool → Walk → Walk)
  | [] => []
  | b :: bs => branchWalk number b :: branchWalks number bs

end

theorem branchWalk_eq (number : Nat) (b : Branch Node) :
  branchWalk lexicon word number b = fun mayStop k pos t =>
    walkChain lexicon word b.nodes
      (k.close ⟨number, b.replacement, t.output.length, mayStop⟩) pos t
  := by
  cases b
  rw [branchWalk]

theorem branchWalks_eq_map (number : Nat) (branches : List (Branch Node)) :
  branchWalks lexicon word number branches = branches.map (branchWalk lexicon word number)
  := by
  induction branches with
  | nil => rw [branchWalks, List.map_nil]
  | cons b bs ih => rw [branchWalks, List.map_cons, ih]

/-- The walk along all that remains. -/
def Next.walk : Next → Walk
  | done => Walk.done
  | seq nodes next => walkChain lexicon word nodes next.walk
  | close b next => next.walk.close b

end Pattern

/-- The match that a complete path makes. -/
def Arrival.toMatch (a : Arrival) : Match :=
  let output := Utf8.decode a.trail.output
  ⟨a.stop, output, Captures.put (a.trail.captures.map (·.map Utf8.decode)) 0 output⟩

/-- The match that takes the most of the word, if a walk along the pattern brings back anything at
all. -/
def Pattern.walkedMatch? (pattern : Pattern) (lexicon : Lexicon) (word : Bytes) :
    Option (Option Match) :=
  ((Next.seq pattern.nodes .done).walk lexicon word 0 .start).map fun (r, _) =>
    r.found.map Arrival.toMatch

end Respell
