import Respell.Pattern
import Respell.Search.Repetition

/-!
# Searching along a pattern

Each node of a pattern is a step, and a chain is the composition of its nodes.  Bytes,
sets and literals try their repetitions from the most to the fewest; groups and classes
are repeated in rounds, with a step for each branch and for each member.
-/

namespace Respell

/-- What a search depends on besides the pattern: the classes, and which complete paths
are good enough not to look any further. -/
structure Search where
  lexicon : Lexicon
  enough : Path → Bool

namespace Search

/-- The search that stops at a path through the whole word, as no path is better. -/
def untilWordEnd (lexicon : Lexicon) : Search := ⟨lexicon, fun p => p.rest.isEmpty⟩

theorem untilWordEnd_enough (lexicon : Lexicon) (p : Path) :
  (untilWordEnd lexicon).enough p = true ↔ p.left = 0
  := List.isEmpty_iff_length_eq_zero

/-- The step of a class member: its text in front of the rest of the word is taken and its
replacement given out. -/
def memberStep (casing : Casing) (m : Member) : Step := fun k p =>
  if casing.leads m.text p.rest then k (p.advance m.text.length m.replacement) else .fail

/-- The steps of the class at an id, one for each member. -/
def classSteps (s : Search) (id : ClassId) : List Step :=
  match s.lexicon.get? id with
  | none => []
  | some c => c.members.map (memberStep c.casing)

/-- A step that takes some of the word is repeated as often as the bounds and the word
allow.  Each number of repetitions is tried, the greatest first. -/
def downFromMost (s : Search) (step? : Path → Option Path) (reps : Reps) : Step := fun k p =>
  let paths := (Path.iterates step? (reps.most.getD p.left) p).drop reps.least
  explore s.enough k paths.reverse .fail

/-- Bytes that satisfy a condition are taken and given out as they are. -/
def copyBytes (s : Search) (accepts : UInt8 → Bool) (reps : Reps) : Step :=
  s.downFromMost (Path.copyByte? accepts) reps

/-- Copies of a text in any case are taken, and a replacement is given out for each.  The
text without bytes is replaced once, whatever the bounds are. -/
def replaceText (s : Search) (text replacement : Bytes) (reps : Reps) : Step :=
  if text.isEmpty then fun k p => k (p.advance 0 replacement)
  else s.downFromMost (Path.replaceText? text replacement) reps

/-- The step of a leaf. -/
def leaf (s : Search) (reps : Reps) : Leaf → Step
  | .byte b => s.copyBytes (fun c => Casing.folded.key b = Casing.folded.key c) reps
  | .set members => s.copyBytes members.contains reps
  | .literal text replacement => s.replaceText text replacement reps
  | .memberOf id => repeated s.enough (s.classSteps id) reps
  | .wordEnd => fun k p => if p.rest.isEmpty || reps.least = 0 then k p else .fail
  | .remainder => fun k p =>
    let all := k (p.advance p.left p.rest)
    if all.found.isNone && reps.least = 0 then all.orElse (k p) else all

mutual

/-- The step of a node. -/
def node (s : Search) : Node → Step
  | .leaf content reps => s.leaf reps content
  | .group number branches reps => repeated s.enough (s.branchSteps number branches) reps

/-- The step of a chain: the nodes one after the other. -/
def chain (s : Search) : List Node → Step
  | [] => fun k => k
  | n :: ns => fun k => s.node n (s.chain ns k)

/-- The step of a branch of the group with the given number: its nodes one after the other,
and then the replacement and the capture of what they give out. -/
def branchStep (s : Search) (number : Nat) : Branch Node → Step
  | ⟨nodes, replacement⟩ => fun k p =>
    s.chain nodes (fun q => k (q.leaveBranch p.given number replacement)) p

/-- The steps of the branches of the group with the given number. -/
def branchSteps (s : Search) (number : Nat) : List (Branch Node) → List Step
  | [] => []
  | b :: bs => s.branchStep number b :: s.branchSteps number bs

end

theorem branchStep_eq (s : Search) (number : Nat) (b : Branch Node) :
  s.branchStep number b = fun k p =>
    s.chain b.nodes (fun q => k (q.leaveBranch p.given number b.replacement)) p
  := by
  cases b
  rw [branchStep]

theorem branchSteps_eq_map (s : Search) (number : Nat) (branches : List (Branch Node)) :
  s.branchSteps number branches = branches.map (s.branchStep number)
  := by
  induction branches with
  | nil => rw [branchSteps, List.map_nil]
  | cons b bs ih => rw [branchSteps, List.map_cons, ih]

/-- The best complete path along a chain through the front of a word. -/
def longest? (s : Search) (nodes : List Node) (word : Bytes) : Option Path :=
  (s.chain nodes .done (.start word)).found

end Search

end Respell
