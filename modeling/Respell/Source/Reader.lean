import Respell.Captures
import Respell.Source.Item

/-!
# Reading patterns

The reader takes the items of a pattern one by one.  It keeps the chain that is being read
and, for each group that is still open, what was read of it and of the chain around it.
When the pattern ends all open groups are closed, from the inside out.
-/

namespace Respell.Source

/-- A group whose end was not reached yet: where it begins, its number, the nodes in front
of it in its own chain, and its branches so far. -/
structure OpenGroup where
  pos : Nat
  number : Nat
  before : List Node
  branches : List (Branch Node)

/-- What is known of a pattern in the middle of it: the chain that is being read, the
groups around it from the inside out, the number of groups so far, the classes, and the
warnings. -/
structure Reader where
  chain : List Node
  opened : List OpenGroup
  groups : Nat
  lexicon : Lexicon
  warnings : List Warning

namespace Reader

/-- In front of any pattern. -/
def start (lexicon : Lexicon) : Reader := ⟨[], [], 0, lexicon, []⟩

/-- The chain being read belongs to a group. -/
def inGroup (r : Reader) : Bool := !r.opened.isEmpty

/-- Some more warnings. -/
def warn (r : Reader) (warnings : List Warning) : Reader :=
  { r with warnings := r.warnings ++ warnings }

/-- Some more nodes at the end of the chain. -/
def append (r : Reader) (nodes : List Node) : Reader :=
  { r with chain := r.chain ++ nodes }

/-- A group begins at the position `pos`.  It gets the next number. -/
def openGroup (r : Reader) (pos : Nat) : Reader :=
  let number := r.groups + 1
  let warnings := if number < captureCount then [] else [.groupBeyondCaptures number pos]
  { r with
    chain := []
    opened := ⟨pos, number, r.chain, []⟩ :: r.opened
    groups := number
    warnings := r.warnings ++ warnings }

/-- The chain becomes a branch of the innermost group, and an empty chain begins. -/
def endBranch (r : Reader) (replacement : Option Bytes) : Reader :=
  match r.opened with
  | [] => r
  | g :: outer =>
    { r with
      chain := []
      opened := { g with branches := g.branches ++ [⟨r.chain, replacement⟩] } :: outer }

/-- The innermost group becomes a node of the chain around it. -/
def closeGroup (r : Reader) (reps : Reps) : Reader :=
  match r.opened with
  | [] => r
  | g :: outer =>
    { r with chain := g.before ++ [.group g.number g.branches reps], opened := outer }

/-- The innermost group is closed where the pattern ends. -/
def abandonGroup (r : Reader) : Reader :=
  match r.opened with
  | [] => r
  | g :: _ => (r.closeGroup .once).warn [.unclosedGroup g.pos]

/-- The class that is referred to exists, with the members given there, and a node for it
is at the end of the chain. -/
def refer (r : Reader) (ref : Reference) (reps : Reps) : Reader :=
  let (id, lexicon) := r.lexicon.intern ref.name
  let lexicon := ref.members.foldl (fun l m => (l.add ref.name m).2) lexicon
  { r with chain := r.chain ++ [.leaf (.memberOf id) reps], lexicon := lexicon }

/-- After an item that begins at the position `pos`. -/
def take (r : Reader) (pos : Nat) : Item → Reader
  | .groupOpen => r.openGroup pos
  | .branchEnd replacement => r.endBranch replacement
  | .groupClose replacement reps => (r.endBranch replacement).closeGroup reps
  | .cutOff replacement => (r.endBranch replacement).abandonGroup
  | .reference ref reps => r.refer ref reps
  | .nodes nodes => r.append nodes

/-- After the end of the pattern. -/
def finish (r : Reader) : Reader :=
  r.opened.foldl (fun r _ => (r.endBranch none).abandonGroup) r

/-- After all items of the rest of a pattern, which has `total` bytes. -/
def read (total : Nat) (r : Reader) : Bytes → Reader
  | [] => r.finish
  | b :: rest =>
    let scan := item total r.inGroup b rest
    ((r.warn scan.warnings).take (position total (b :: rest)) scan.value).read total scan.rest
  termination_by s => s.length
  decreasing_by apply Nat.lt_succ_of_le (length_item_le total r.inGroup b rest)

end Reader

end Respell.Source
