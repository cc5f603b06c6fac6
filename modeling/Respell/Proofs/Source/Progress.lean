import Respell.Proofs.Source.Descent
import Respell.Proofs.Source.Places
import Respell.Proofs.Source.Roles

/-!
# Recursive descent comes to an end

Each function of the descent takes at least one byte where there is something for it to read, and
never more than there is.  So a budget that grows with what is left is enough for all of them.  A
sequence stops in front of a mark that ends a branch, within a group, or at the end of the pattern,
and a group that is not closed takes all that is left.  What the descent gives is what the reader
gives, which takes one item after the other.
-/

namespace Respell.Source

/-- The reader in the middle of a chain, in some groups. -/
def Context.reader (c : Context) (chain : List Node) (opened : List OpenGroup) : Reader :=
  ⟨chain, opened, c.groups, c.lexicon, c.warnings⟩

theorem Context.warn_nil (c : Context) :
  c.warn [] = c
  := by
  rw [warn, List.append_nil]

theorem Context.warn_append (c : Context) (ws ws' : List Warning) :
  c.warn (ws ++ ws') = (c.warn ws).warn ws'
  := by
  rw [warn, ← List.append_assoc]
  rfl

namespace Descent

/-- There are more warnings.  If one of them is about a group that is not closed then nothing is
left. -/
def Reports {α : Type} (c : Context) (x : Parse α) : Prop :=
  ∃ ws, x.context.warnings = c.warnings ++ ws ∧ ∀ pos, .unclosedGroup pos ∈ ws → x.rest = []

/-- What a sequence gives. -/
structure IsSequence (total : Nat) (inGroup : Bool) (c : Context) (s : Bytes)
    (x : Parse (List Node)) : Prop where
  suffix : x.rest <:+ s
  stops : ∀ b ∈ x.rest.head?, (inGroup && Mark.endsBranch b) = true
  reports : Reports c x
  reads : ∀ chain opened, (!opened.isEmpty) = inGroup →
    (c.reader chain opened).read total s =
      (x.context.reader (chain ++ x.value) opened).read total x.rest

/-- What an atom gives, where no branch ends. -/
structure IsAtom (total : Nat) (inGroup : Bool) (c : Context) (s : Bytes)
    (x : Parse (List Node)) : Prop where
  reports : Reports c x
  reads : ∀ q, quantifier total x.rest = some q → ∀ chain opened, (!opened.isEmpty) = inGroup →
    (c.reader chain opened).read total s =
      ((x.context.warn q.warnings).reader (chain ++ repeatLast x.value q.value) opened).read total
        q.rest

/-- What the branches of a group give, with the quantifier behind the group. -/
structure IsBranches (total pos : Nat) (c : Context) (s : Bytes) (x : Parse (List (Branch Node))) :
    Prop where
  suffix : x.rest <:+ s
  reports : Reports c x
  reads : ∀ q, quantifier total x.rest = some q → ∀ number before branches opened,
    (c.reader [] (⟨pos, number, before, branches⟩ :: opened)).read total s =
      ((x.context.warn q.warnings).reader
        (before ++ [.group number (branches ++ x.value) (q.value.getD .once)]) opened).read total
        q.rest

variable {source rest : Bytes} {inGroup : Bool} {b : UInt8} {c : Context}

/-! ### Warnings and quantifiers -/

/-- Without the mark that closes a group there is no warning about one. -/
theorem not_mem_of_closers {ws : List Warning} (h : Mark.groupClose ∉ closers ws) (pos : Nat) :
  .unclosedGroup pos ∉ ws
  := fun hmem => h (List.mem_filterMap.mpr ⟨_, hmem, rfl⟩)

theorem not_mem_warnings_item (total : Nat) (inGroup : Bool) (b : UInt8) (rest : Bytes) (pos : Nat) :
  .unclosedGroup pos ∉ (item total inGroup b rest).warnings
  := by
  apply not_mem_of_closers
  rcases closers_item total inGroup b rest with h | h | h
  · rw [h]
    decide
  · rw [h]
    decide
  · rw [h]
    decide

theorem not_mem_warnings_replacement (total : Nat) (stops : UInt8 → Bool) (s : Bytes) (pos : Nat) :
  .unclosedGroup pos ∉ (Source.replacement total stops s).warnings
  := by
  apply not_mem_of_closers
  rw [closers_replacement]
  exact List.not_mem_nil

/-- The scan of a quantifier, when the descent gives one. -/
theorem quantifier_of_eq_some {s : Bytes} (hs : s <:+ source) {q : Scan (Option Reps)}
    (hq : quantifier source.length s = some q) :
  Source.quantifier source.length s = ⟨q.value.getD .once, q.rest, q.warnings⟩
  := by
  obtain ⟨q', hq', h⟩ := exists_quantifier hs
  rw [hq] at hq'
  rw [h, Option.some.inj hq']

theorem not_mem_warnings_quantifier {s : Bytes} (hs : s <:+ source) {q : Scan (Option Reps)}
    (hq : quantifier source.length s = some q) (pos : Nat) :
  .unclosedGroup pos ∉ q.warnings
  := by
  apply not_mem_of_closers
  have hclosers := closers_quantifier source.length s
  rw [quantifier_of_eq_some hs hq] at hclosers
  rw [hclosers]
  exact List.not_mem_nil

theorem suffix_of_quantifier {s : Bytes} (hs : s <:+ source) {q : Scan (Option Reps)}
    (hq : quantifier source.length s = some q) :
  q.rest <:+ s
  := by
  have hsuffix := suffix_quantifier source.length s
  rwa [quantifier_of_eq_some hs hq] at hsuffix

/-- What is read behind something else that warned, when nothing can be left of nothing. -/
theorem Reports.trans {α β : Type} {x : Parse α} {ws : List Warning} {y : Parse β}
    (hx : Reports c x) (hws : ∀ pos, .unclosedGroup pos ∉ ws)
    (hy : Reports (x.context.warn ws) y) (hnil : x.rest = [] → y.rest = []) :
  Reports c y
  := by
  obtain ⟨us, hus, hunclosed⟩ := hx
  obtain ⟨vs, hvs, hunclosed'⟩ := hy
  refine ⟨us ++ ws ++ vs, ?_, ?_⟩
  · rw [hvs, Context.warn, hus, List.append_assoc, List.append_assoc, List.append_assoc]
  · intro pos hpos
    rw [List.mem_append, List.mem_append] at hpos
    rcases hpos with (hpos | hpos) | hpos
    · exact hnil (hunclosed pos hpos)
    · exact absurd hpos (hws pos)
    · exact hunclosed' pos hpos

/-! ### Atoms without branches -/

theorem repeatLast_singleton {n : Node} (hn : n.withReps .once = n) (reps : Option Reps) :
  repeatLast [n] reps = [n.withReps (reps.getD .once)]
  := by
  cases reps with
  | none => exact congrArg (fun n => [n]) hn.symm
  | some reps => rfl

theorem repeatLast_nodesOfText (text : Bytes) (repeated : Bool) (reps : Option Reps) :
  repeatLast (nodesOfText text repeated) reps =
    if 1 < text.length && repeated then
      [Node.ofText text.dropLast,
        (Node.ofText (text.drop (text.length - 1))).withReps (reps.getD .once)]
    else [(Node.ofText text).withReps (reps.getD .once)]
  := by
  rw [nodesOfText]
  cases reps with
  | none =>
      rw [Option.getD_none, ofText_withReps_once, ofText_withReps_once]
      rfl
  | some reps =>
      split
      · rfl
      · rfl

/-- An atom that is an item together with the quantifier behind it. -/
theorem isAtom_of_item (hs : b :: rest <:+ source) {x : Parse (List Node)} {ws : List Warning}
    (hx : x.rest <:+ rest) (hws : x.context.warnings = c.warnings ++ ws)
    (hitem : ∀ q, quantifier source.length x.rest = some q →
      let scan := item source.length inGroup b rest
      scan.rest = q.rest ∧ scan.warnings = ws ++ q.warnings ∧
        ∀ chain opened pos, ((c.warn scan.warnings).reader chain opened).take pos scan.value =
          (x.context.warn q.warnings).reader (chain ++ repeatLast x.value q.value) opened) :
  IsAtom source.length inGroup c (b :: rest) x
  where
  reports := by
    obtain ⟨q, hq, -⟩ := exists_quantifier (hx.trans ((List.suffix_cons b rest).trans hs))
    obtain ⟨-, hwarnings, -⟩ := hitem q hq
    refine ⟨ws, hws, ?_⟩
    intro pos hpos
    have hmem : .unclosedGroup pos ∈ (item source.length inGroup b rest).warnings := by
      rw [hwarnings]
      exact List.mem_append_left _ hpos
    exact absurd hmem (not_mem_warnings_item source.length inGroup b rest pos)
  reads := by
    intro q hq chain opened hopened
    obtain ⟨hrest, -, htake⟩ := hitem q hq
    have hin : (c.reader chain opened).inGroup = inGroup := hopened
    rw [Reader.read, hin, hrest]
    exact congrArg (Reader.read source.length · q.rest) (htake chain opened _)

theorem exists_atom_of_reference (hs : Mark.classOpen :: rest <:+ source) :
  ∃ x, Gives (rest.length + 2) (atom source.length inGroup · c (Mark.classOpen :: rest)) x ∧
    x.rest <:+ rest ∧ IsAtom source.length inGroup c (Mark.classOpen :: rest) x
  := by
  let ref := Source.reference source.length
    (Source.position source.length (Mark.classOpen :: rest)) rest
  have href : ref.rest <:+ rest := suffix_reference _ _ rest
  let x : Parse (List Node) := ⟨[.leaf (.memberOf (c.lexicon.idOf ref.value.name)) .once], ref.rest,
    ⟨c.groups, c.lexicon.declare ref.value, c.warnings ++ ref.warnings⟩⟩
  refine ⟨x, ?_, href, isAtom_of_item hs href rfl ?_⟩
  · apply Gives.of_succ
    intro n hn
    have hread : reference source.length n (Mark.classOpen :: rest) = some ref :=
      gives_reference hs n hn
    change atom source.length inGroup (n + 1) c (Mark.classOpen :: rest) = _
    rw [atom, if_neg (by decide), if_pos rfl, hread]
    rfl
  · intro q hq
    have hrest := href.trans ((List.suffix_cons _ rest).trans hs)
    rw [item_classOpen]
    dsimp only
    rw [quantifier_of_eq_some hrest hq]
    refine ⟨rfl, rfl, ?_⟩
    intro chain opened pos
    rw [repeatLast_singleton rfl, Context.warn_append]
    rfl

theorem exists_atom_of_set (hs : Mark.setOpen :: rest <:+ source) :
  ∃ x, Gives (rest.length + 2) (atom source.length inGroup · c (Mark.setOpen :: rest)) x ∧
    x.rest <:+ rest ∧ IsAtom source.length inGroup c (Mark.setOpen :: rest) x
  := by
  let members := Source.set source.length
    (Source.position source.length (Mark.setOpen :: rest)) rest
  have hmembers : members.rest <:+ rest := suffix_set _ _ rest
  refine ⟨⟨[.leaf (.set members.value) .once], members.rest, c.warn members.warnings⟩, ?_,
    hmembers, isAtom_of_item hs hmembers rfl ?_⟩
  · apply Gives.of_succ
    intro n hn
    have hread : set source.length n (Mark.setOpen :: rest) = some members := gives_set hs n hn
    change atom source.length inGroup (n + 1) c (Mark.setOpen :: rest) = _
    rw [atom, if_neg (by decide), if_neg (by decide), if_pos rfl, hread]
    rfl
  · intro q hq
    have hrest := hmembers.trans ((List.suffix_cons _ rest).trans hs)
    rw [item_setOpen]
    dsimp only
    rw [quantifier_of_eq_some hrest hq]
    refine ⟨rfl, rfl, ?_⟩
    intro chain opened pos
    rw [repeatLast_singleton rfl, Context.warn_append]
    rfl

theorem exists_atom_of_wildcard (hs : Mark.wildcard :: rest <:+ source) :
  ∃ x, Gives (rest.length + 2) (atom source.length inGroup · c (Mark.wildcard :: rest)) x ∧
    x.rest <:+ rest ∧ IsAtom source.length inGroup c (Mark.wildcard :: rest) x
  := by
  refine ⟨⟨[.leaf (.set .full) .once], rest, c⟩, ?_, List.suffix_refl rest,
    isAtom_of_item hs (List.suffix_refl rest) (List.append_nil _).symm ?_⟩
  · apply Gives.of_succ
    intro n _
    change atom source.length inGroup (n + 1) c (Mark.wildcard :: rest) = _
    rw [atom, if_neg (by decide), if_neg (by decide), if_neg (by decide), if_pos rfl]
  · intro q hq
    rw [item_wildcard]
    dsimp only
    rw [quantifier_of_eq_some ((List.suffix_cons _ rest).trans hs) hq]
    refine ⟨rfl, rfl, ?_⟩
    intro chain opened pos
    rw [repeatLast_singleton rfl]
    rfl

/-- A byte that begins nothing else begins a run of text, even one that ends a branch. -/
theorem exists_atom_of_text (hs : b :: rest <:+ source) (hb : Mark.beginsItem b = false) :
  ∃ x, Gives (rest.length + 2) (atom source.length inGroup · c (b :: rest)) x ∧ x.rest <:+ rest ∧
    ((inGroup && Mark.endsBranch b) = false → IsAtom source.length inGroup c (b :: rest) x)
  := by
  obtain ⟨x, hgives, hvalue, hrest, hwarnings⟩ := gives_run inGroup hs
  have hsuffix : x.rest <:+ rest := by
    rw [hrest]
    exact (suffix_moreText _ _ _).trans (suffix_textByte _ b rest)
  refine ⟨⟨x.value, x.rest,
    c.warn (Source.strayQuantifier source.length (b :: rest) ++ x.warnings)⟩, ?_, hsuffix, ?_⟩
  · apply Gives.of_succ
    intro n hn
    have hread : run source.length inGroup n (b :: rest) = some x := hgives n hn
    simp only [Mark.beginsItem, Bool.or_eq_false_iff, decide_eq_false_iff_not] at hb
    change atom source.length inGroup (n + 1) c (b :: rest) = _
    rw [atom, if_neg hb.1.1.1, if_neg hb.1.1.2, if_neg hb.1.2, if_neg hb.2, strayQuantifier_eq hs,
      Option.bind_eq_bind, Option.bind_some, hread]
    rfl
  · intro hend
    apply isAtom_of_item hs hsuffix rfl
    intro q hq
    have hquantifier := quantifier_of_eq_some (hsuffix.trans ((List.suffix_cons b rest).trans hs)) hq
    rw [hrest] at hquantifier
    rw [item_text rest ⟨hend, hb⟩, textNodes]
    dsimp only
    rw [hquantifier, hwarnings]
    refine ⟨rfl, rfl, ?_⟩
    intro chain opened pos
    rw [hvalue, repeatLast_nodesOfText, Context.warn_append]
    rfl

/-! ### The ends of branches -/

section BranchEnd

variable {total pos number : Nat} {before chain : List Node} {read : List (Branch Node)}
  {opened : List OpenGroup} {t u : Bytes}

/-- Within a group the byte that ends a branch begins an item. -/
theorem read_of_endsBranch (hb : Mark.endsBranch b = true) :
  let r := c.reader chain (⟨pos, number, before, read⟩ :: opened)
  let scan := branchEnd total b rest
  r.read total (b :: rest) =
    ((r.warn scan.warnings).take (Source.position total (b :: rest)) scan.value).read total
      scan.rest
  := by
  intro r scan
  have hin : r.inGroup = true := rfl
  have hend : (true && Mark.endsBranch b) = true := hb
  rw [Reader.read, hin, item_end rest hend]

/-- Where the pattern ends within a group the group is closed there. -/
theorem read_of_replacement_nil (ht : ∀ b ∈ t.head?, Mark.endsBranch b = true)
    (hrest : (Source.replacement total Mark.endsBranchReplacement t).rest = []) :
  let replaced := Source.replacement total Mark.endsBranchReplacement t
  (c.reader chain (⟨pos, number, before, read⟩ :: opened)).read total t =
    (((c.warn replaced.warnings).warn [.unclosedGroup pos]).reader
      (before ++ [.group number (read ++ [⟨chain, replaced.value⟩]) .once]) opened).read total []
  := by
  intro replaced
  cases t with
  | nil =>
      have hwarn : c.warn replaced.warnings = c := c.warn_nil
      rw [hwarn, Reader.read, Reader.read]
      exact (Reader.finish_of_opened rfl).2
  | cons b rest =>
      rw [read_of_endsBranch (ht b rfl), branchEnd_of_nil rfl hrest]
      rfl

/-- Behind the replacement of a branch there is a comma or the end of the group, or nothing. -/
theorem comma_or_groupClose {d : UInt8} (ht : ∀ b ∈ t.head?, Mark.endsBranch b = true)
    (hrest : (Source.replacement total Mark.endsBranchReplacement t).rest = d :: u) :
  d = Mark.comma ∨ d = Mark.groupClose
  := by
  cases t with
  | nil => cases hrest
  | cons b rest =>
      apply ends_of_replacement total rest (ht b rfl)
      rw [hrest]
      rfl

theorem read_of_comma (ht : ∀ b ∈ t.head?, Mark.endsBranch b = true)
    (hrest : (Source.replacement total Mark.endsBranchReplacement t).rest = Mark.comma :: u) :
  let replaced := Source.replacement total Mark.endsBranchReplacement t
  (c.reader chain (⟨pos, number, before, read⟩ :: opened)).read total t =
    ((c.warn replaced.warnings).reader []
      (⟨pos, number, before, read ++ [⟨chain, replaced.value⟩]⟩ :: opened)).read total u
  := by
  cases t with
  | nil => cases hrest
  | cons b rest =>
      rw [read_of_endsBranch (ht b rfl), branchEnd_of_comma rfl hrest]
      rfl

theorem read_of_groupClose (ht : ∀ b ∈ t.head?, Mark.endsBranch b = true)
    (hrest : (Source.replacement total Mark.endsBranchReplacement t).rest = Mark.groupClose :: u) :
  let replaced := Source.replacement total Mark.endsBranchReplacement t
  let reps := Source.quantifier total u
  (c.reader chain (⟨pos, number, before, read⟩ :: opened)).read total t =
    (((c.warn replaced.warnings).warn reps.warnings).reader
      (before ++ [.group number (read ++ [⟨chain, replaced.value⟩]) reps.value]) opened).read total
        reps.rest
  := by
  intro replaced reps
  cases t with
  | nil => cases hrest
  | cons b rest =>
      rw [read_of_endsBranch (ht b rfl), branchEnd_of_cons rfl hrest (by decide),
        ← Context.warn_append]
      rfl

end BranchEnd

/-! ### Groups -/

/-- Every sequence at the front of these bytes comes to an end. -/
def SequencesEnd (source s : Bytes) : Prop :=
  ∀ inGroup c, ∃ x, Gives (4 * s.length + 1) (sequence source.length inGroup · c s) x ∧
    IsSequence source.length inGroup c s x

/-- The branches of every group at the front of these bytes come to an end. -/
def BranchesEnd (source s : Bytes) : Prop :=
  ∀ pos c, ∃ x, Gives (4 * s.length + 2) (branches source.length pos · c s) x ∧
    IsBranches source.length pos c s x

/-- A group comes to an end if its branches do. -/
theorem exists_group (hs : b :: rest <:+ source) (h : BranchesEnd source rest) (c : Context) :
  ∃ x, Gives (4 * rest.length + 3) (group source.length · c (b :: rest)) x ∧ x.rest <:+ rest ∧
    Reports c x ∧ (b = Mark.groupOpen → ∀ inGroup,
      IsAtom source.length inGroup c (b :: rest) ⟨[x.value], x.rest, x.context⟩)
  := by
  let pos := Source.position source.length (b :: rest)
  let number := c.groups + 1
  let beyond : List Warning :=
    if number < captureCount then [] else [.groupBeyondCaptures number pos]
  obtain ⟨y, hgives, hy⟩ := h pos ⟨number, c.lexicon, c.warnings ++ beyond⟩
  have hbeyond : ∀ pos, Warning.unclosedGroup pos ∉ beyond := by
    intro pos hpos
    subst beyond
    split at hpos
    · cases hpos
    · cases List.mem_singleton.mp hpos
  have hreports : Reports c y := by
    obtain ⟨ws, hws, hunclosed⟩ := hy.reports
    refine ⟨beyond ++ ws, hws.trans (List.append_assoc _ _ _), ?_⟩
    intro pos hpos
    rcases List.mem_append.mp hpos with hpos | hpos
    · exact absurd hpos (hbeyond pos)
    · exact hunclosed pos hpos
  refine ⟨⟨.group number y.value .once, y.rest, y.context⟩, ?_, hy.suffix, hreports, ?_⟩
  · apply Gives.of_succ
    intro n hn
    have hread : branches source.length pos n ⟨number, c.lexicon, c.warnings ++ beyond⟩ rest = some y :=
      hgives n hn
    change group source.length (n + 1) c (b :: rest) = _
    rw [group, position_eq hs, Option.bind_eq_bind, Option.bind_some]
    dsimp only
    rw [hread]
    rfl
  · rintro rfl inGroup
    refine ⟨hreports, ?_⟩
    intro q hq chain opened hopened
    have hopen : ((c.reader chain opened).warn []).take pos .groupOpen =
        Context.reader ⟨number, c.lexicon, c.warnings ++ beyond⟩ []
          (⟨pos, number, chain, []⟩ :: opened) := by
      rw [Reader.warn, List.append_nil]
      rfl
    rw [Reader.read, item_groupOpen]
    dsimp only
    rw [hopen, hy.reads q hq, repeatLast_singleton rfl]
    rfl

/-- An atom comes to an end if the branches of the group that it may be do. -/
theorem exists_atom (hs : b :: rest <:+ source) (h : BranchesEnd source rest) (inGroup : Bool)
    (c : Context) :
  ∃ x, Gives (4 * rest.length + 4) (atom source.length inGroup · c (b :: rest)) x ∧
    x.rest <:+ rest ∧
    ((inGroup && Mark.endsBranch b) = false → IsAtom source.length inGroup c (b :: rest) x)
  := by
  have hle : rest.length + 2 ≤ 4 * rest.length + 4 := by omega
  cases hb : Mark.beginsItem b with
  | false =>
      obtain ⟨x, hgives, hx⟩ := exists_atom_of_text hs hb
      exact ⟨x, hgives.mono hle, hx⟩
  | true =>
      simp only [Mark.beginsItem, Bool.or_eq_true, decide_eq_true_eq] at hb
      rcases hb with ((rfl | rfl) | rfl) | rfl
      · obtain ⟨x, hgives, hsuffix, -, hatom⟩ := exists_group hs h c
        refine ⟨⟨[x.value], x.rest, x.context⟩, ?_, hsuffix, fun _ => hatom rfl inGroup⟩
        apply Gives.of_succ
        intro n hn
        have hread : group source.length n c (Mark.groupOpen :: rest) = some x := hgives n hn
        change atom source.length inGroup (n + 1) c (Mark.groupOpen :: rest) = _
        rw [atom, if_pos rfl, hread]
        rfl
      · obtain ⟨x, hgives, hsuffix, hatom⟩ := exists_atom_of_reference hs
        exact ⟨x, hgives.mono hle, hsuffix, fun _ => hatom⟩
      · obtain ⟨x, hgives, hsuffix, hatom⟩ := exists_atom_of_set hs
        exact ⟨x, hgives.mono hle, hsuffix, fun _ => hatom⟩
      · obtain ⟨x, hgives, hsuffix, hatom⟩ := exists_atom_of_wildcard hs
        exact ⟨x, hgives.mono hle, hsuffix, fun _ => hatom⟩

theorem sequencesEnd_nil (source : Bytes) :
  SequencesEnd source []
  := by
  intro inGroup c
  refine ⟨⟨[], [], c⟩, Gives.of_succ fun _ _ => rfl, List.suffix_refl [], ?_, ?_, ?_⟩
  · intro b hb
    cases hb
  · exact ⟨[], (List.append_nil _).symm, fun _ _ => rfl⟩
  · intro chain opened _
    rw [List.append_nil]

/-- A sequence goes on behind its first atom, or it stops in front of it. -/
theorem sequencesEnd_cons (hs : b :: rest <:+ source) (hbranches : BranchesEnd source rest)
    (h : ∀ t, t <:+ rest → SequencesEnd source t) :
  SequencesEnd source (b :: rest)
  := by
  intro inGroup c
  cases hend : inGroup && Mark.endsBranch b with
  | true =>
      refine ⟨⟨[], b :: rest, c⟩, Gives.of_succ ?_, List.suffix_refl _, ?_, ?_, ?_⟩
      · exact fun _ _ => if_pos hend
      · intro d hd
        rw [← Option.some.inj hd]
        exact hend
      · exact ⟨[], (List.append_nil _).symm, fun _ hpos => nomatch hpos⟩
      · intro chain opened _
        rw [List.append_nil]
  | false =>
      obtain ⟨x, hx, hsuffix, hatom⟩ := exists_atom hs hbranches inGroup c
      have hatom := hatom hend
      have hrest : x.rest <:+ source := hsuffix.trans ((List.suffix_cons b rest).trans hs)
      obtain ⟨q, hq, -⟩ := exists_quantifier hrest
      have hqrest := suffix_of_quantifier hrest hq
      obtain ⟨y, hy, hsequence⟩ := h q.rest (hqrest.trans hsuffix) inGroup (x.context.warn q.warnings)
      have hle := (hqrest.trans hsuffix).length_le
      refine ⟨⟨repeatLast x.value q.value ++ y.value, y.rest, y.context⟩, Gives.of_succ ?_,
        ?_, hsequence.stops, ?_, ?_⟩
      · intro n hn
        rw [List.length_cons] at hn
        have hread : atom source.length inGroup n c (b :: rest) = some x := hx n hn
        have hmore : sequence source.length inGroup n (x.context.warn q.warnings) q.rest = some y :=
          hy n (by omega)
        change sequence source.length inGroup (n + 1) c (b :: rest) = _
        rw [sequence, hend, if_neg Bool.false_ne_true, hread, Option.bind_eq_bind,
          Option.bind_some, hq, Option.bind_eq_bind, Option.bind_some, hmore]
        rfl
      · exact hsequence.suffix.trans ((hqrest.trans hsuffix).trans (List.suffix_cons b rest))
      · apply hatom.reports.trans (not_mem_warnings_quantifier hrest hq) hsequence.reports
        intro hnil
        have hnone := hsequence.suffix.trans hqrest
        rw [hnil] at hnone
        exact List.suffix_nil.mp hnone
      · intro chain opened hopened
        rw [hatom.reads q hq chain opened hopened, hsequence.reads _ opened hopened,
          List.append_assoc]

/-- A branch is a sequence with its replacement, and behind a comma there is another branch. -/
theorem branchesEnd {s : Bytes} (hs : s <:+ source) (hsequences : SequencesEnd source s)
    (h : ∀ t, t <:+ s → t.length < s.length → BranchesEnd source t) :
  BranchesEnd source s
  := by
  intro pos c
  obtain ⟨x, hx, hsequence⟩ := hsequences true c
  have hrest := hsequence.suffix.trans hs
  let replaced := Source.replacement source.length Mark.endsBranchReplacement x.rest
  have hreplaced : replaced.rest <:+ x.rest := suffix_replacement _ _ _
  have hwarnings := not_mem_warnings_replacement source.length Mark.endsBranchReplacement x.rest
  -- What the sequence and its replacement give, with any budget that is large enough.
  have hread : ∀ n, 4 * s.length + 1 ≤ n → sequence source.length true n c s = some x ∧
      replacement source.length Mark.endsBranchReplacement n x.rest = some replaced := by
    intro n hn
    have hle := hsequence.suffix.length_le
    exact ⟨hx n hn, gives_replacement Mark.endsBranchReplacement hrest n (by omega)⟩
  cases ht : replaced.rest with
  | nil =>
      refine ⟨⟨[⟨x.value, replaced.value⟩], [],
        (x.context.warn replaced.warnings).warn [.unclosedGroup pos]⟩, Gives.of_succ ?_,
        List.nil_suffix, ?_, ?_⟩
      · intro n hn
        obtain ⟨hnodes, hreplacement⟩ := hread n hn
        change branches source.length pos (n + 1) c s = _
        rw [branches, hnodes, Option.bind_eq_bind, Option.bind_some, hreplacement,
          Option.bind_eq_bind, Option.bind_some]
        dsimp only
        rw [ht]
        rfl
      · exact hsequence.reports.trans hwarnings ⟨_, rfl, fun _ _ => rfl⟩ fun _ => rfl
      · intro q hq number before read opened
        obtain rfl : ⟨none, [], []⟩ = q := Option.some.inj hq
        dsimp only
        rw [Context.warn_nil, hsequence.reads [] _ rfl, List.nil_append,
          read_of_replacement_nil hsequence.stops ht]
        rfl
  | cons d t =>
      have hne : x.rest ≠ [] := by
        intro hnil
        rw [ht, hnil] at hreplaced
        cases List.suffix_nil.mp hreplaced
      rw [ht] at hreplaced
      have hsuffix : t <:+ s := ((List.suffix_cons d t).trans hreplaced).trans hsequence.suffix
      rcases comma_or_groupClose hsequence.stops ht with rfl | rfl
      · have hlt := (hreplaced.trans hsequence.suffix).length_le
        rw [List.length_cons] at hlt
        obtain ⟨y, hy, hbranches⟩ := h t hsuffix hlt pos (x.context.warn replaced.warnings)
        refine ⟨⟨⟨x.value, replaced.value⟩ :: y.value, y.rest, y.context⟩, Gives.of_succ ?_,
          hbranches.suffix.trans hsuffix, ?_, ?_⟩
        · intro n hn
          obtain ⟨hnodes, hreplacement⟩ := hread n hn
          have hmore : branches source.length pos n (x.context.warn replaced.warnings) t = some y :=
            hy n (by omega)
          change branches source.length pos (n + 1) c s = _
          rw [branches, hnodes, Option.bind_eq_bind, Option.bind_some, hreplacement,
            Option.bind_eq_bind, Option.bind_some]
          dsimp only
          rw [ht]
          dsimp only
          rw [if_pos rfl, hmore]
          rfl
        · exact hsequence.reports.trans hwarnings hbranches.reports fun hnil => absurd hnil hne
        · intro q hq number before read opened
          rw [hsequence.reads [] _ rfl, List.nil_append, read_of_comma hsequence.stops ht,
            hbranches.reads q hq, List.append_assoc]
          rfl
      · refine ⟨⟨[⟨x.value, replaced.value⟩], t, x.context.warn replaced.warnings⟩,
          Gives.of_succ ?_, hsuffix, ?_, ?_⟩
        · intro n hn
          obtain ⟨hnodes, hreplacement⟩ := hread n hn
          change branches source.length pos (n + 1) c s = _
          rw [branches, hnodes, Option.bind_eq_bind, Option.bind_some, hreplacement,
            Option.bind_eq_bind, Option.bind_some]
          dsimp only
          rw [ht]
          dsimp only
          rw [if_neg (by decide), if_pos rfl]
          rfl
        · exact hsequence.reports.trans hwarnings
            ⟨[], (List.append_nil _).symm, fun _ hpos => nomatch hpos⟩ fun hnil => absurd hnil hne
        · intro q hq number before read opened
          rw [hsequence.reads [] _ rfl, List.nil_append, read_of_groupClose hsequence.stops ht,
            quantifier_of_eq_some (hsuffix.trans hs) hq]

/-- With a budget of four calls for each byte that is left, and two more, everything that is read
there comes to an end. -/
theorem sequencesEnd_and_branchesEnd {s : Bytes} (hs : s <:+ source) :
  SequencesEnd source s ∧ BranchesEnd source s
  := by
  generalize hk : s.length = k
  induction k using Nat.strong_induction_on generalizing s with
  | _ k ih =>
      subst hk
      have hbranches : ∀ t, t <:+ s → t.length < s.length → BranchesEnd source t :=
        fun t ht hlt => (ih t.length hlt (ht.trans hs) rfl).2
      have hsequences : SequencesEnd source s := by
        cases s with
        | nil => exact sequencesEnd_nil source
        | cons b rest =>
            apply sequencesEnd_cons hs
            · exact hbranches rest (List.suffix_cons b rest) (Nat.lt_succ_self _)
            · intro t ht
              have hlt : t.length < (b :: rest).length := Nat.lt_succ_of_le ht.length_le
              exact (ih t.length hlt (ht.trans ((List.suffix_cons b rest).trans hs)) rfl).1
      exact ⟨hsequences, branchesEnd hs hsequences hbranches⟩

/-! ### The whole descent -/

theorem IsSequence.rest_eq_nil {total : Nat} {s : Bytes} {x : Parse (List Node)}
    (h : IsSequence total false c s x) :
  x.rest = []
  := by
  have hstops := h.stops
  simp only [Bool.false_and, Bool.false_eq_true] at hstops
  cases hrest : x.rest with
  | nil => rfl
  | cons b rest =>
      rw [hrest] at hstops
      exact absurd rfl (hstops b)

theorem IsSequence.exists_end {total : Nat} {s : Bytes} {x : Parse (List Node)}
    (h : IsSequence total true c s x) :
  x.rest = [] ∨ ∃ b ∈ [Mark.comma, Mark.groupClose, Mark.replace], ∃ rest, x.rest = b :: rest
  := by
  have hstops := h.stops
  cases hrest : x.rest with
  | nil => exact .inl rfl
  | cons b rest =>
      rw [hrest] at hstops
      have hb : Mark.endsBranch b = true := hstops b rfl
      simp only [Mark.endsBranch, Bool.or_eq_true, decide_eq_true_eq] at hb
      refine .inr ⟨b, ?_, rest, rfl⟩
      rcases hb with (rfl | rfl) | rfl
      · decide
      · decide
      · decide

/-- The descent through a whole source is what the reader makes of it. -/
theorem exists_sequence_ofSource (source : Bytes) (lexicon : Lexicon) :
  ∃ x, Gives (4 * source.length + 2) (sequence source.length false · (.start lexicon) source) x ∧
    Reading.ofSource source lexicon =
      ⟨⟨x.value, x.context.groups⟩, x.context.warnings, x.context.lexicon⟩
  := by
  obtain ⟨hsequences, -⟩ := sequencesEnd_and_branchesEnd (List.suffix_refl source)
  obtain ⟨x, hx, hsequence⟩ := hsequences false (.start lexicon)
  refine ⟨x, hx.mono (Nat.le_succ _), ?_⟩
  have hread : (Reader.start lexicon).read source.length source =
      (x.context.reader ([] ++ x.value) []).read source.length x.rest :=
    hsequence.reads [] [] rfl
  rw [hsequence.rest_eq_nil, Reader.read, List.nil_append] at hread
  rw [Reading.ofSource, hread]
  rfl

example : (sequence 5 false 22 (.start .empty) (Utf8.encode "(b,c|")).map
    (fun x => (x.rest, x.context.warnings)) = some ([], [.unclosedGroup 0]) := by
  decide +kernel

/-- On every rest of a source each function comes to an end, and so counts no position beyond the
source.  Those that begin with a byte of their own take it, a quantifier and a text take what they
find, and a sequence goes on to the end of the pattern or of its branch.  So a group that warns that
it is not closed has taken everything. -/
theorem progress_of_suffix {source s : Bytes} (hs : s <:+ source) (c : Context) :
  let total := source.length
  let enough := 4 * s.length + 2
  (∀ b rest, s = b :: rest →
    (∀ inGroup, ∃ x, Gives enough (atom total inGroup · c s) x ∧ x.rest <:+ rest) ∧
    (∀ inGroup, ∃ x, Gives enough (run total inGroup · s) x ∧ x.rest <:+ rest) ∧
    (∃ x, Gives enough (group total · c s) x ∧ x.rest <:+ rest ∧ Reports c x) ∧
    (∃ x, Gives enough (reference total · s) x ∧ x.rest <:+ rest) ∧
    (∃ x, Gives enough (set total · s) x ∧ x.rest <:+ rest)) ∧
  (∃ x, quantifier total s = some x ∧ x.rest <:+ s) ∧
  (∀ stops, ∃ x, Gives enough (textUntil total stops · s) x ∧ x.rest <:+ s) ∧
  (∃ x, Gives enough (sequence total false · c s) x ∧ x.rest = []) ∧
  (∃ x, Gives enough (sequence total true · c s) x ∧ x.rest <:+ s ∧
    (x.rest = [] ∨ ∃ b ∈ [Mark.comma, Mark.groupClose, Mark.replace], ∃ rest, x.rest = b :: rest)) ∧
  ∀ lexicon, ∃ x,
    Gives (4 * total + 2) (sequence total false · (.start lexicon) source) x ∧
    Reading.ofSource source lexicon =
      ⟨⟨x.value, x.context.groups⟩, x.context.warnings, x.context.lexicon⟩
  := by
  intro total enough
  obtain ⟨hsequences, -⟩ := sequencesEnd_and_branchesEnd hs
  refine ⟨?_, ?_, ?_, ?_, ?_, exists_sequence_ofSource source⟩
  · rintro b rest rfl
    have hlength : enough = 4 * rest.length + 6 := by
      subst enough
      rw [List.length_cons]
      omega
    obtain ⟨-, hbranches⟩ := sequencesEnd_and_branchesEnd ((List.suffix_cons b rest).trans hs)
    refine ⟨?_, ?_, ?_, ?_, ?_⟩
    · intro inGroup
      obtain ⟨x, hx, hsuffix, -⟩ := exists_atom hs hbranches inGroup c
      exact ⟨x, hx.mono (by omega), hsuffix⟩
    · intro inGroup
      obtain ⟨x, hx, -, hrest, -⟩ := gives_run inGroup hs
      refine ⟨x, hx.mono (by omega), ?_⟩
      rw [hrest]
      exact (suffix_moreText _ _ _).trans (suffix_textByte _ b rest)
    · obtain ⟨x, hx, hsuffix, hreports, -⟩ := exists_group hs hbranches c
      exact ⟨x, hx.mono (by omega), hsuffix, hreports⟩
    · exact ⟨_, (gives_reference hs).mono (by omega), suffix_reference _ _ rest⟩
    · exact ⟨_, (gives_set hs).mono (by omega), suffix_set _ _ rest⟩
  · obtain ⟨x, hx, -⟩ := exists_quantifier hs
    exact ⟨x, hx, suffix_of_quantifier hs hx⟩
  · intro stops
    exact ⟨_, (gives_textUntil stops hs).mono (by omega), suffix_textUntil _ _ s⟩
  · obtain ⟨x, hx, hsequence⟩ := hsequences false c
    exact ⟨x, hx.mono (Nat.le_succ _), hsequence.rest_eq_nil⟩
  · obtain ⟨x, hx, hsequence⟩ := hsequences true c
    exact ⟨x, hx.mono (Nat.le_succ _), hsequence.suffix, hsequence.exists_end⟩

/-- A group, a reference in it and a replacement in that one are cut short by the end of the source,
which is an escape. -/
theorem progress_of_unclosed :
  let source := Utf8.encode "a(b,<c:d|e%"
  let s := Utf8.encode "(b,<c:d|e%"
  let c := Context.start .empty
  s <:+ source ∧
    (∃ x, Gives (4 * s.length + 2) (group source.length · c s) x ∧ x.rest <:+ s.tail ∧
      Reports c x) ∧
    ∃ x, Gives (4 * s.length + 2) (sequence source.length false · c s) x ∧ x.rest = []
  := by
  intro source s c
  have hs : s <:+ source := by decide
  obtain ⟨hcons, -, -, hsequence, -, -⟩ := progress_of_suffix hs c
  obtain ⟨-, -, hgroup, -, -⟩ := hcons Mark.groupOpen s.tail rfl
  exact ⟨hs, hgroup, hsequence⟩

end Descent

end Respell.Source
