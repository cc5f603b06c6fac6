import Respell.Proofs.Source.Leaves
import Respell.Proofs.Source.Reader
import Respell.Proofs.Source.Rest

/-!
# Reading by recursive descent

A pattern may also be read by functions that call each other: a sequence is made of atoms, a group
is an atom, and each branch of a group is a sequence.  Nothing about these functions tells that they
come to an end, so each of them has a budget, which bounds how deep the calls are.  They check what
they need: that there is a byte to read, and that what is left is no longer than the pattern when
its position is counted.  They give nothing when a check fails, and nothing when the budget is used
up.  Here those that read no group are shown to give what the scans of the same bytes give, with
any budget that is large enough.
-/

namespace Respell.Source

/-- The number of groups so far, the classes, and the warnings. -/
structure Context where
  groups : Nat
  lexicon : Lexicon
  warnings : List Warning

/-- In front of any pattern. -/
def Context.start (lexicon : Lexicon) : Context := ⟨0, lexicon, []⟩

/-- Some more warnings. -/
def Context.warn (c : Context) (ws : List Warning) : Context :=
  { c with warnings := c.warnings ++ ws }

/-- What was read, what is left, and what is known behind it. -/
structure Parse (α : Type) where
  value : α
  rest : Bytes
  context : Context

namespace Descent

/-! ### Texts and quantifiers -/

/-- The position where `rest` begins, unless it is longer than the pattern. -/
def position (total : Nat) (rest : Bytes) : Option Nat :=
  if rest.length ≤ total then some (total - rest.length) else none

/-- One byte of text, where an escape gives the byte after it. -/
def textByte (total : Nat) : Bytes → Option (Scan UInt8)
  | [] => none
  | b :: rest =>
    if b = Mark.escape then
      match rest with
      | c :: rest => some ⟨c, rest, []⟩
      | [] => do
        let pos ← position total [b]
        return ⟨b, [], [.finalEscape pos]⟩
    else some ⟨b, rest, []⟩

/-- The text up to the first byte, outside escapes, at which it stops. -/
def textUntil (total : Nat) (stops : UInt8 → Bool) : Nat → Bytes → Option (Scan Bytes)
  | 0, _ => none
  | _ + 1, [] => some ⟨[], [], []⟩
  | n + 1, b :: rest =>
    if stops b then some ⟨[], b :: rest, []⟩
    else do
      let first ← textByte total (b :: rest)
      let more ← textUntil total stops n first.rest
      return ⟨first.value :: more.value, more.rest, first.warnings ++ more.warnings⟩

/-- The replacement that a replace mark begins, if there is one. -/
def replacement (total : Nat) (stops : UInt8 → Bool) (n : Nat) :
    Bytes → Option (Scan (Option Bytes))
  | [] => some ⟨none, [], []⟩
  | b :: rest =>
    if b = Mark.replace then do
      let text ← textUntil total stops n rest
      return ⟨some text.value, text.rest, text.warnings⟩
    else some ⟨none, b :: rest, []⟩

/-- The warning about a malformed count, if there is one. -/
def malformedCount (total : Nat) (s : Bytes) : Option (List Warning) :=
  if startsMalformedCount s then do
    let pos ← position total s
    return [.malformedCount pos]
  else some []

/-- The warning about a quantifier that nothing precedes, if there is one. -/
def strayQuantifier (total : Nat) (s : Bytes) : Option (List Warning) :=
  if startsQuantifier s then do
    let pos ← position total s
    return [.strayQuantifier pos]
  else some []

/-- The bounds given by the quantifier in front, if there is one.  A malformed count is left where
it is. -/
def quantifier (total : Nat) (s : Bytes) : Option (Scan (Option Reps)) :=
  match quantifier? s with
  | some (reps, rest) => some ⟨some reps, rest, []⟩
  | none => do
    let ws ← malformedCount total s
    return ⟨none, s, ws⟩

/-! ### Runs of text -/

/-- The rest of a run of text. -/
def moreText (total : Nat) (inGroup : Bool) : Nat → Bytes → Option (Scan Bytes)
  | 0, _ => none
  | _ + 1, [] => some ⟨[], [], []⟩
  | n + 1, b :: rest =>
    if endsRun inGroup (b :: rest) then some ⟨[], b :: rest, []⟩
    else do
      let ws ← malformedCount total (b :: rest)
      let first ← textByte total (b :: rest)
      let more ← moreText total inGroup n first.rest
      return ⟨first.value :: more.value, more.rest, ws ++ first.warnings ++ more.warnings⟩

/-- The nodes of a text that was read, of which the last byte stands for itself when it is to be
repeated. -/
def nodesOfText (text : Bytes) (repeated : Bool) : List Node :=
  if 1 < text.length && repeated then
    [Node.ofText text.dropLast, Node.ofText (text.drop (text.length - 1))]
  else [Node.ofText text]

/-- The nodes of a run of text, whatever its first byte is. -/
def run (total : Nat) (inGroup : Bool) (n : Nat) (s : Bytes) : Option (Scan (List Node)) := do
  let first ← textByte total s
  let more ← moreText total inGroup n first.rest
  return ⟨nodesOfText (first.value :: more.value) (startsQuantifier more.rest), more.rest,
    first.warnings ++ more.warnings⟩

/-! ### References -/

/-- The members in front, with commas between them. -/
def members (total : Nat) : Nat → Bytes → Option (Scan (List Member))
  | 0, _ => none
  | n + 1, s => do
    let text ← textUntil total Mark.endsMember n s
    let replaced ← replacement total Mark.endsMemberReplacement n text.rest
    let here := if text.value.isEmpty then [] else [Member.ofText text.value replaced.value]
    match after? Mark.comma replaced.rest with
    | some rest =>
      let more ← members total n rest
      return ⟨here ++ more.value, more.rest, text.warnings ++ replaced.warnings ++ more.warnings⟩
    | none => return ⟨here, replaced.rest, text.warnings ++ replaced.warnings⟩

/-- The name and the members in front. -/
def nameAndMembers (total n : Nat) (s : Bytes) : Option (Scan Reference) :=
  let name := s.takeWhile (!Mark.endsName ·)
  let rest := s.dropWhile (!Mark.endsName ·)
  match after? Mark.declare rest with
  | some rest => do
    let members ← members total n rest
    return ⟨⟨name, members.value⟩, members.rest, members.warnings⟩
  | none => some ⟨⟨name, []⟩, rest, []⟩

/-- A class reference, with its opening mark. -/
def reference (total n : Nat) : Bytes → Option (Scan Reference)
  | [] => none
  | b :: rest => do
    let pos ← position total (b :: rest)
    let read ← nameAndMembers total n rest
    match after? Mark.classClose read.rest with
    | some rest => return ⟨read.value, rest, read.warnings⟩
    | none => return ⟨read.value, read.rest, read.warnings ++ [.unclosedReference pos]⟩

/-! ### Sets -/

/-- One item of a set. -/
def setItem (total : Nat) (s : Bytes) : Option (Scan SetItem) := do
  let one ← textByte total s
  match one.rest with
  | mark :: c :: rest =>
    if mark = Mark.range ∧ c ≠ Mark.setClose then
      let other ← textByte total (c :: rest)
      return ⟨.interval one.value other.value, other.rest, one.warnings ++ other.warnings⟩
    else return ⟨.single one.value, mark :: c :: rest, one.warnings⟩
  | rest => return ⟨.single one.value, rest, one.warnings⟩

/-- The items of a set up to its end. -/
def setItems (total pos : Nat) : Nat → Bool → Bytes → Option (Scan (List SetItem))
  | 0, _, _ => none
  | _ + 1, _, [] => some ⟨[], [], [.unclosedSet pos]⟩
  | n + 1, first, b :: rest =>
    if b = Mark.setClose ∧ !first then some ⟨[], rest, []⟩
    else do
      let item ← setItem total (b :: rest)
      let more ← setItems total pos n false item.rest
      return ⟨item.value :: more.value, more.rest, item.warnings ++ more.warnings⟩

/-- A set, with its opening mark. -/
def set (total n : Nat) : Bytes → Option (Scan ByteSet)
  | [] => none
  | b :: rest => do
    let pos ← position total (b :: rest)
    let negated := rest.head? = some Mark.negate
    let items ← setItems total pos n true (if negated then rest.tail else rest)
    return ⟨.ofItems negated items.value, items.rest, items.warnings⟩

/-! ### Groups -/

/-- The nodes, the last one with the bounds of the quantifier that follows. -/
def repeatLast (nodes : List Node) : Option Reps → List Node
  | none => nodes
  | some reps => nodes.dropLast ++ (nodes.getLast?.map (·.withReps reps)).toList

mutual

/-- The nodes up to the end of the pattern, or to the end of the branch within a group. -/
def sequence (total : Nat) (inGroup : Bool) : Nat → Context → Bytes → Option (Parse (List Node))
  | 0, _, _ => none
  | _ + 1, c, [] => some ⟨[], [], c⟩
  | n + 1, c, b :: rest =>
    if inGroup && Mark.endsBranch b then some ⟨[], b :: rest, c⟩
    else do
      let nodes ← atom total inGroup n c (b :: rest)
      let reps ← quantifier total nodes.rest
      let more ← sequence total inGroup n (nodes.context.warn reps.warnings) reps.rest
      return ⟨repeatLast nodes.value reps.value ++ more.value, more.rest, more.context⟩

/-- A group, a reference, a set, a wildcard or a run of text, without the quantifier after it. -/
def atom (total : Nat) (inGroup : Bool) : Nat → Context → Bytes → Option (Parse (List Node))
  | 0, _, _ => none
  | _ + 1, _, [] => none
  | n + 1, c, b :: rest =>
    if b = Mark.groupOpen then do
      let node ← group total n c (b :: rest)
      return ⟨[node.value], node.rest, node.context⟩
    else if b = Mark.classOpen then do
      let ref ← reference total n (b :: rest)
      let id := c.lexicon.idOf ref.value.name
      return ⟨[.leaf (.memberOf id) .once], ref.rest,
        ⟨c.groups, c.lexicon.declare ref.value, c.warnings ++ ref.warnings⟩⟩
    else if b = Mark.setOpen then do
      let members ← set total n (b :: rest)
      return ⟨[.leaf (.set members.value) .once], members.rest, c.warn members.warnings⟩
    else if b = Mark.wildcard then some ⟨[.leaf (.set .full) .once], rest, c⟩
    else do
      let stray ← strayQuantifier total (b :: rest)
      let run ← run total inGroup n (b :: rest)
      return ⟨run.value, run.rest, c.warn (stray ++ run.warnings)⟩

/-- A group, with its opening mark. -/
def group (total : Nat) : Nat → Context → Bytes → Option (Parse Node)
  | 0, _, _ => none
  | _ + 1, _, [] => none
  | n + 1, c, b :: rest => do
    let pos ← position total (b :: rest)
    let number := c.groups + 1
    let beyond := if number < captureCount then [] else [.groupBeyondCaptures number pos]
    let read ← branches total pos n ⟨number, c.lexicon, c.warnings ++ beyond⟩ rest
    return ⟨.group number read.value .once, read.rest, read.context⟩

/-- The branches of a group that was opened at the position `pos`, up to its end. -/
def branches (total pos : Nat) : Nat → Context → Bytes → Option (Parse (List (Branch Node)))
  | 0, _, _ => none
  | n + 1, c, s => do
    let nodes ← sequence total true n c s
    let replaced ← replacement total Mark.endsBranchReplacement n nodes.rest
    let branch := ⟨nodes.value, replaced.value⟩
    let c := nodes.context.warn replaced.warnings
    match replaced.rest with
    | [] => return ⟨[branch], [], c.warn [.unclosedGroup pos]⟩
    | b :: rest =>
      if b = Mark.comma then
        let more ← branches total pos n c rest
        return ⟨branch :: more.value, more.rest, more.context⟩
      else if b = Mark.groupClose then return ⟨[branch], rest, c⟩
      else return ⟨[branch], b :: rest, c.warn [.unclosedGroup pos]⟩

end

/-! ### Scans with enough budget -/

/-- With every budget from `enough` on the function gives `x`. -/
def Gives {α : Type} (enough : Nat) (f : Nat → Option α) (x : α) : Prop :=
  ∀ n, enough ≤ n → f n = some x

theorem Gives.of_succ {α : Type} {enough : Nat} {f : Nat → Option α} {x : α}
    (h : Gives enough (fun n => f (n + 1)) x) :
  Gives (enough + 1) f x
  := by
  intro n hn
  cases n with
  | zero => cases hn
  | succ n => exact h n (Nat.le_of_succ_le_succ hn)

theorem Gives.mono {α : Type} {enough more : Nat} {f : Nat → Option α} {x : α}
    (h : Gives enough f x) (hle : enough ≤ more) :
  Gives more f x
  := fun n hn => h n (Nat.le_trans hle hn)

section Scans

variable {source s rest : Bytes} {b : UInt8}

theorem position_eq (hs : s <:+ source) :
  position source.length s = some (Source.position source.length s)
  := if_pos hs.length_le

theorem textByte_eq (hs : b :: rest <:+ source) :
  textByte source.length (b :: rest) = some (Source.textByte source.length b rest)
  := by
  by_cases hb : b = Mark.escape
  · subst hb
    cases rest with
    | nil =>
        rw [textByte, if_pos rfl, position_eq hs]
        rfl
    | cons c rest => rfl
  · rw [textByte.eq_def, Source.textByte.eq_def, if_neg hb]
    exact if_neg hb

theorem suffix_of_textByte (hs : b :: rest <:+ source) :
  (Source.textByte source.length b rest).rest <:+ source
  := (suffix_textByte source.length b rest).trans ((List.suffix_cons b rest).trans hs)

/-- A text takes as many calls as it has bytes at most, and one for its end. -/
theorem gives_textUntil (stops : UInt8 → Bool) (hs : s <:+ source) :
  Gives (s.length + 1) (textUntil source.length stops · s)
    (Source.textUntil source.length stops s)
  := by
  fun_induction Source.textUntil source.length stops s with
  | case1 => exact Gives.of_succ fun _ _ => rfl
  | case2 b rest hb => exact Gives.of_succ fun _ _ => if_pos hb
  | case3 b rest hb first more ih =>
      apply Gives.of_succ
      intro n hn
      have hlength : first.rest.length ≤ rest.length := length_textByte_le source.length b rest
      have hmore : textUntil source.length stops n first.rest = some more :=
        ih (suffix_of_textByte hs) n (Nat.le_trans (Nat.succ_le_succ hlength) hn)
      change textUntil source.length stops (n + 1) (b :: rest) = _
      rw [textUntil, if_neg hb, textByte_eq hs, Option.bind_eq_bind, Option.bind_some, hmore]
      rfl

theorem gives_replacement (stops : UInt8 → Bool) (hs : s <:+ source) :
  Gives (s.length + 1) (replacement source.length stops · s)
    (Source.replacement source.length stops s)
  := by
  intro n hn
  cases s with
  | nil => rfl
  | cons b rest =>
      have htext : textUntil source.length stops n rest =
          some (Source.textUntil source.length stops rest) :=
        gives_textUntil stops ((List.suffix_cons b rest).trans hs) n (Nat.le_of_succ_le hn)
      change replacement source.length stops n (b :: rest) = _
      rw [replacement, Source.replacement, htext]
      split
      · rfl
      · rfl

theorem malformedCount_eq (hs : s <:+ source) :
  malformedCount source.length s = some (Source.malformedCount source.length s)
  := by
  rw [malformedCount, Source.malformedCount, position_eq hs]
  split
  · rfl
  · rfl

theorem strayQuantifier_eq (hs : s <:+ source) :
  strayQuantifier source.length s = some (Source.strayQuantifier source.length s)
  := by
  rw [strayQuantifier, Source.strayQuantifier, position_eq hs]
  split
  · rfl
  · rfl

/-- A quantifier gives the bounds of the scan, if it gives any. -/
theorem exists_quantifier (hs : s <:+ source) :
  ∃ x, quantifier source.length s = some x ∧
    Source.quantifier source.length s = ⟨x.value.getD .once, x.rest, x.warnings⟩
  := by
  rw [quantifier, Source.quantifier]
  cases quantifier? s with
  | some found => exact ⟨_, rfl, rfl⟩
  | none =>
      dsimp only
      rw [malformedCount_eq hs]
      exact ⟨_, rfl, rfl⟩

theorem gives_moreText (inGroup : Bool) (hs : s <:+ source) :
  Gives (s.length + 1) (moreText source.length inGroup · s)
    (Source.moreText source.length inGroup s)
  := by
  fun_induction Source.moreText source.length inGroup s with
  | case1 => exact Gives.of_succ fun _ _ => rfl
  | case2 b rest hb => exact Gives.of_succ fun _ _ => if_pos hb
  | case3 b rest hb first more ih =>
      apply Gives.of_succ
      intro n hn
      have hlength : first.rest.length ≤ rest.length := length_textByte_le source.length b rest
      have hmore : moreText source.length inGroup n first.rest = some more :=
        ih (suffix_of_textByte hs) n (Nat.le_trans (Nat.succ_le_succ hlength) hn)
      change moreText source.length inGroup (n + 1) (b :: rest) = _
      rw [moreText, if_neg hb, malformedCount_eq hs, Option.bind_eq_bind, Option.bind_some,
        textByte_eq hs, Option.bind_eq_bind, Option.bind_some, hmore]
      rfl

/-- A run has the text of the scan, whose warning about a quantifier that nothing precedes is given
apart. -/
theorem gives_run (inGroup : Bool) (hs : b :: rest <:+ source) :
  ∃ x, Gives (rest.length + 1) (run source.length inGroup · (b :: rest)) x ∧
    let text := Source.text source.length inGroup b rest
    x.value = nodesOfText text.value (startsQuantifier text.rest) ∧ x.rest = text.rest ∧
      Source.strayQuantifier source.length (b :: rest) ++ x.warnings = text.warnings
  := by
  let first := Source.textByte source.length b rest
  let more := Source.moreText source.length inGroup first.rest
  refine ⟨⟨nodesOfText (first.value :: more.value) (startsQuantifier more.rest), more.rest,
    first.warnings ++ more.warnings⟩, ?_, rfl, rfl, (List.append_assoc _ _ _).symm⟩
  intro n hn
  have hlength : first.rest.length ≤ rest.length := length_textByte_le source.length b rest
  have hmore : moreText source.length inGroup n first.rest = some more :=
    gives_moreText inGroup (suffix_of_textByte hs) n (Nat.le_trans (Nat.succ_le_succ hlength) hn)
  change run source.length inGroup n (b :: rest) = _
  rw [run, textByte_eq hs, Option.bind_eq_bind, Option.bind_some, hmore]
  rfl

/-- Members take a call each, and those of the text and the replacement of one of them. -/
theorem gives_members (hs : s <:+ source) :
  Gives (s.length + 2) (members source.length · s) (Source.members source.length s)
  := by
  fun_induction Source.members source.length s with
  | case1 s text replaced here rest hafter more ih =>
      have htext : text.rest <:+ s := suffix_textUntil _ _ s
      have hreplaced : replaced.rest <:+ text.rest := suffix_replacement _ _ _
      have hlength := length_of_after? hafter
      have hle := htext.length_le
      have hle' := hreplaced.length_le
      apply Gives.of_succ
      intro n hn
      have htext' : textUntil source.length Mark.endsMember n s = some text :=
        gives_textUntil Mark.endsMember hs n hn
      have hreplaced' : replacement source.length Mark.endsMemberReplacement n text.rest =
          some replaced :=
        gives_replacement Mark.endsMemberReplacement (htext.trans hs) n (by omega)
      have hmore : members source.length n rest = some more :=
        ih ((suffix_of_after? hafter).trans (hreplaced.trans (htext.trans hs))) n (by omega)
      change members source.length (n + 1) s = _
      rw [members, htext', Option.bind_eq_bind, Option.bind_some, hreplaced', Option.bind_eq_bind,
        Option.bind_some, hafter]
      dsimp only
      rw [hmore]
      rfl
  | case2 s text replaced here hafter =>
      have htext : text.rest <:+ s := suffix_textUntil _ _ s
      have hle := htext.length_le
      apply Gives.of_succ
      intro n hn
      have htext' : textUntil source.length Mark.endsMember n s = some text :=
        gives_textUntil Mark.endsMember hs n hn
      have hreplaced' : replacement source.length Mark.endsMemberReplacement n text.rest =
          some replaced :=
        gives_replacement Mark.endsMemberReplacement (htext.trans hs) n (by omega)
      change members source.length (n + 1) s = _
      rw [members, htext', Option.bind_eq_bind, Option.bind_some, hreplaced', Option.bind_eq_bind,
        Option.bind_some, hafter]
      rfl

theorem gives_nameAndMembers (hs : s <:+ source) :
  Gives (s.length + 1) (nameAndMembers source.length · s) (Source.nameAndMembers source.length s)
  := by
  intro n hn
  have hname := List.dropWhile_suffix (l := s) (!Mark.endsName ·)
  have hle := hname.length_le
  change nameAndMembers source.length n s = _
  rw [nameAndMembers, Source.nameAndMembers]
  dsimp only
  cases hafter : after? Mark.declare (s.dropWhile (!Mark.endsName ·)) with
  | none => rfl
  | some rest =>
      have hlength := length_of_after? hafter
      have hmembers : members source.length n rest = some (Source.members source.length rest) :=
        gives_members ((suffix_of_after? hafter).trans (hname.trans hs)) n (by omega)
      dsimp only
      rw [hmembers]
      rfl

theorem gives_reference (hs : b :: rest <:+ source) :
  Gives (rest.length + 1) (reference source.length · (b :: rest))
    (Source.reference source.length (Source.position source.length (b :: rest)) rest)
  := by
  intro n hn
  have hread : nameAndMembers source.length n rest =
      some (Source.nameAndMembers source.length rest) :=
    gives_nameAndMembers ((List.suffix_cons b rest).trans hs) n hn
  change reference source.length n (b :: rest) = _
  rw [reference, position_eq hs, Option.bind_eq_bind, Option.bind_some, hread,
    Option.bind_eq_bind, Option.bind_some, Source.reference]
  cases after? Mark.classClose (Source.nameAndMembers source.length rest).rest with
  | none => rfl
  | some rest => rfl

theorem setItem_eq (hs : b :: rest <:+ source) :
  setItem source.length (b :: rest) = some (Source.setItem source.length b rest)
  := by
  have hone := suffix_of_textByte hs
  rw [setItem, textByte_eq hs, Option.bind_eq_bind, Option.bind_some, Source.setItem]
  rcases hrest : (Source.textByte source.length b rest).rest with _ | ⟨mark, _ | ⟨c, rest'⟩⟩
  · rfl
  · rfl
  · rw [hrest] at hone
    dsimp only
    rw [textByte_eq ((List.suffix_cons mark _).trans hone)]
    split
    · rfl
    · rfl

theorem gives_setItems (pos : Nat) (first : Bool) (hs : s <:+ source) :
  Gives (s.length + 1) (setItems source.length pos · first s)
    (Source.setItems source.length pos first s)
  := by
  fun_induction Source.setItems source.length pos first s with
  | case1 => exact Gives.of_succ fun _ _ => rfl
  | case2 first b rest hb => exact Gives.of_succ fun _ _ => if_pos hb
  | case3 first b rest hb item more ih =>
      have hitem : item.rest <:+ rest := suffix_setItem source.length b rest
      have hle := hitem.length_le
      apply Gives.of_succ
      intro n hn
      rw [List.length_cons] at hn
      have hmore : setItems source.length pos n false item.rest = some more :=
        ih (hitem.trans ((List.suffix_cons b rest).trans hs)) n (by omega)
      change setItems source.length pos (n + 1) first (b :: rest) = _
      rw [setItems, if_neg hb, setItem_eq hs, Option.bind_eq_bind, Option.bind_some, hmore]
      rfl

theorem gives_set (hs : b :: rest <:+ source) :
  Gives (rest.length + 1) (set source.length · (b :: rest))
    (Source.set source.length (Source.position source.length (b :: rest)) rest)
  := by
  intro n hn
  let inner := if rest.head? = some Mark.negate then rest.tail else rest
  have hinner : inner <:+ rest := by
    subst inner
    split
    · exact List.tail_suffix rest
    · exact List.suffix_refl rest
  have hitems : setItems source.length (Source.position source.length (b :: rest)) n true inner =
      some (Source.setItems source.length (Source.position source.length (b :: rest)) true inner) :=
    gives_setItems _ true (hinner.trans ((List.suffix_cons b rest).trans hs)) n
      (Nat.le_trans (Nat.succ_le_succ hinner.length_le) hn)
  change set source.length n (b :: rest) = _
  rw [set, position_eq hs, Option.bind_eq_bind, Option.bind_some]
  dsimp only
  rw [hitems, Source.set]
  rfl

end Scans

end Descent

end Respell.Source
