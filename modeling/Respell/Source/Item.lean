import Respell.Pattern.Node
import Respell.Source.Quantifier
import Respell.Source.Reference
import Respell.Source.Set

/-!
# Items of a pattern

Read from left to right, a pattern is a series of items: an opening parenthesis, the end
of a branch or of a group, a class reference, a set, a wildcard or a run of text, together
with the quantifier that follows.  Only one thing about what came before matters to an
item, whether it stands within a group: there commas, bars and closing parentheses end a
branch, while elsewhere they are text.
-/

namespace Respell.Source

/-- What stands at one place of a pattern. -/
inductive Item where
  /-- A group begins. -/
  | groupOpen
  /-- A branch ends and the next one begins. -/
  | branchEnd (replacement : Option Bytes)
  /-- The last branch and its group end. -/
  | groupClose (replacement : Option Bytes) (reps : Reps)
  /-- A branch ends with the pattern, within its replacement. -/
  | cutOff (replacement : Option Bytes)
  /-- A class is referred to. -/
  | reference (ref : Reference) (reps : Reps)
  /-- Nodes that need nothing else to be understood. -/
  | nodes (nodes : List Node)

/-! ### Runs of text -/

/-- A run of text cannot go on with these bytes. -/
def endsRun (inGroup : Bool) (s : Bytes) : Bool :=
  s.head?.any (fun b => Mark.beginsItem b || (inGroup && Mark.endsBranch b)) ||
    startsQuantifier s

/-- The rest of a run of text.  A brace that begins no count belongs to the text. -/
def moreText (total : Nat) (inGroup : Bool) : Bytes → Scan Bytes
  | [] => ⟨[], [], []⟩
  | b :: rest =>
    if endsRun inGroup (b :: rest) then ⟨[], b :: rest, []⟩
    else
      let first := textByte total b rest
      let more := moreText total inGroup first.rest
      ⟨first.value :: more.value, more.rest,
        malformedCount total (b :: rest) ++ first.warnings ++ more.warnings⟩
  termination_by s => s.length
  decreasing_by apply Nat.lt_succ_of_le (length_textByte_le total b rest)

theorem length_moreText_le (total : Nat) (inGroup : Bool) (s : Bytes) :
  (moreText total inGroup s).rest.length ≤ s.length
  := by
  fun_induction moreText total inGroup s with
  | case1 => apply Nat.le_refl
  | case2 => apply Nat.le_refl
  | case3 b rest h first more ih =>
    apply Nat.le_succ_of_le
    apply Nat.le_trans ih
    apply length_textByte_le

/-- The warning about a quantifier that nothing precedes, if the bytes start with one. -/
def strayQuantifier (total : Nat) (s : Bytes) : List Warning :=
  if startsQuantifier s then [.strayQuantifier (position total s)] else []

/-- A run of text that begins with the byte `b`, whatever that byte is. -/
def text (total : Nat) (inGroup : Bool) (b : UInt8) (rest : Bytes) : Scan Bytes :=
  let first := textByte total b rest
  let more := moreText total inGroup first.rest
  ⟨first.value :: more.value, more.rest,
    strayQuantifier total (b :: rest) ++ first.warnings ++ more.warnings⟩

theorem length_text_le (total : Nat) (inGroup : Bool) (b : UInt8) (rest : Bytes) :
  (text total inGroup b rest).rest.length ≤ rest.length
  := by
  apply Nat.le_trans (length_moreText_le _ _ _)
  apply length_textByte_le

/-- The nodes of a run of text, of which the quantifier after it repeats the last byte
only. -/
def textNodes (total : Nat) (inGroup : Bool) (b : UInt8) (rest : Bytes) : Scan (List Node) :=
  let run := text total inGroup b rest
  let reps := quantifier total run.rest
  let nodes :=
    if 1 < run.value.length && startsQuantifier run.rest then
      [Node.ofText run.value.dropLast,
        (Node.ofText (run.value.drop (run.value.length - 1))).withReps reps.value]
    else [(Node.ofText run.value).withReps reps.value]
  ⟨nodes, reps.rest, run.warnings ++ reps.warnings⟩

/-! ### All kinds of items -/

/-- The end of a branch, which begins with the byte `b`. -/
def branchEnd (total : Nat) (b : UInt8) (rest : Bytes) : Scan Item :=
  let replaced := replacement total Mark.endsBranchReplacement (b :: rest)
  match replaced.rest with
  | [] => ⟨.cutOff replaced.value, [], replaced.warnings⟩
  | c :: rest =>
    if c = Mark.comma then ⟨.branchEnd replaced.value, rest, replaced.warnings⟩
    else
      let reps := quantifier total rest
      ⟨.groupClose replaced.value reps.value, reps.rest, replaced.warnings ++ reps.warnings⟩

/-- The item that begins with the byte `b`. -/
def item (total : Nat) (inGroup : Bool) (b : UInt8) (rest : Bytes) : Scan Item :=
  if inGroup && Mark.endsBranch b then branchEnd total b rest
  else if b = Mark.groupOpen then ⟨.groupOpen, rest, []⟩
  else if b = Mark.classOpen then
    let ref := reference total (position total (b :: rest)) rest
    let reps := quantifier total ref.rest
    ⟨.reference ref.value reps.value, reps.rest, ref.warnings ++ reps.warnings⟩
  else if b = Mark.setOpen then
    let members := set total (position total (b :: rest)) rest
    let reps := quantifier total members.rest
    ⟨.nodes [.leaf (.set members.value) reps.value], reps.rest,
      members.warnings ++ reps.warnings⟩
  else if b = Mark.wildcard then
    let reps := quantifier total rest
    ⟨.nodes [.leaf (.set .full) reps.value], reps.rest, reps.warnings⟩
  else
    let run := textNodes total inGroup b rest
    ⟨.nodes run.value, run.rest, run.warnings⟩

theorem length_branchEnd_le (total : Nat) (b : UInt8) (rest : Bytes) :
  (branchEnd total b rest).rest.length ≤ rest.length
  := by
  have h := length_replacement_le total Mark.endsBranchReplacement (b :: rest)
  unfold branchEnd
  dsimp only
  split
  · apply Nat.zero_le
  · next c rest' e =>
    rw [e] at h
    have h := Nat.le_of_succ_le_succ h
    split
    · apply h
    · apply Nat.le_trans (length_quantifier_le _ _) h

/-- Every item takes at least the byte that it begins with. -/
theorem length_item_le (total : Nat) (inGroup : Bool) (b : UInt8) (rest : Bytes) :
  (item total inGroup b rest).rest.length ≤ rest.length
  := by
  unfold item
  split
  · apply length_branchEnd_le
  split
  · apply Nat.le_refl
  split
  · apply Nat.le_trans (length_quantifier_le _ _)
    apply length_reference_le
  split
  · apply Nat.le_trans (length_quantifier_le _ _)
    apply length_set_le
  split
  · apply length_quantifier_le
  · apply Nat.le_trans (length_quantifier_le _ _)
    apply length_text_le

end Respell.Source
