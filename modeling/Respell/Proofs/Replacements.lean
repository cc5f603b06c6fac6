import Respell.Match
import Respell.Proofs.Search.Alike
import Respell.Reading

/-!
# Replacements do not guide the search

What literals, branches and members are replaced by is given out and captured, and otherwise
plays no part in a search.  A pattern is compared with its bare form, in which nothing is
replaced: along both of them the paths stand at the same places and have captured under the
same numbers, although they have given out and captured different texts.  So patterns with the
same bare form match equally much of every word.
-/

namespace Respell

/-! ### Bare forms -/

/-- The leaf without its replacement. -/
def Leaf.bare : Leaf → Leaf
  | .literal text _ => .literal text []
  | content => content

/-- The pattern without replacements of literals and branches, at every depth. -/
def Pattern.bare (pattern : Pattern) : Pattern :=
  ⟨Node.alterChain Leaf.bare (fun _ => none) pattern.nodes, pattern.groups⟩

/-- The member without its replacement. -/
def Member.bare (m : Member) : Member := ⟨m.text, []⟩

/-- The class without the replacements of its members. -/
def NamedClass.bare (c : NamedClass) : NamedClass :=
  { c with members := c.members.map Member.bare }

/-- The lexicon without the replacements of the members of its classes. -/
def Lexicon.bare (l : Lexicon) : Lexicon where
  classes := l.classes.map NamedClass.bare
  byName := l.byName
  lookup_eq name := by
    rw [l.lookup_eq, List.findIdx?_map]
    rfl

theorem Lexicon.get?_bare (l : Lexicon) (id : ClassId) :
  l.bare.get? id = (l.get? id).map NamedClass.bare
  := List.getElem?_map

/-! ### Paths at the same place -/

namespace Path

/-- The paths stand at the same place of a word, and have captured under the same numbers. -/
structure SamePlace (p q : Path) : Prop where
  rest : p.rest = q.rest
  filled : p.captures.map Option.isSome = q.captures.map Option.isSome

variable {p q : Path}

theorem SamePlace.left_eq (h : SamePlace p q) :
  p.left = q.left
  := by
  rw [left, left, h.rest]

theorem SamePlace.advance (h : SamePlace p q) (n : Nat) (s t : Bytes) :
  SamePlace (p.advance n s) (q.advance n t)
  := ⟨congrArg (List.drop n) h.rest, h.filled⟩

/-- Whatever two branches are replaced by, both are captured under the same number. -/
theorem SamePlace.leaveBranch (h : SamePlace p q) (entry entry' : Bytes) (number : Nat)
    (replacement replacement' : Option Bytes) :
  SamePlace (p.leaveBranch entry number replacement) (q.leaveBranch entry' number replacement')
  where
  rest := h.rest
  filled := by
    rw [Path.leaveBranch, Path.leaveBranch]
    dsimp only [Captures.put]
    rw [Vector.map_setIfInBounds, Vector.map_setIfInBounds, h.filled]
    rfl

theorem rel_copyByte? (accepts : UInt8 → Bool) (p q : Path) (h : SamePlace p q) :
  Option.Rel SamePlace (copyByte? accepts p) (copyByte? accepts q)
  := by
  obtain ⟨rest, given, captures⟩ := p
  obtain ⟨rest', given', captures'⟩ := q
  obtain rfl : rest = rest' := h.rest
  cases rest with
  | nil => exact Option.Rel.none
  | cons b rest =>
      rw [copyByte?, copyByte?]
      dsimp only
      split
      · exact Option.Rel.some ⟨rfl, h.filled⟩
      · exact Option.Rel.none

theorem rel_replaceText? (text replacement replacement' : Bytes) (p q : Path)
    (h : SamePlace p q) :
  Option.Rel SamePlace (replaceText? text replacement p) (replaceText? text replacement' q)
  := by
  rw [replaceText?, replaceText?, h.rest]
  split
  · exact Option.Rel.some (h.advance _ _ _)
  · exact Option.Rel.none

end Path

/-! ### Searches -/

namespace Search

variable (lexicon : Lexicon)

theorem enough_eq_of_samePlace (p q : Path) (h : p.SamePlace q) :
  (untilWordEnd lexicon).enough p = (untilWordEnd lexicon.bare).enough q
  := congrArg List.isEmpty h.rest

theorem alike_memberStep_bare (casing : Casing) (m : Member) :
  Step.Alike Path.SamePlace (memberStep casing m) (memberStep casing m.bare)
  := by
  intro k k' hk p q hpq
  rw [memberStep, memberStep, hpq.rest, Member.bare]
  split
  · apply hk _ _ (hpq.advance _ _ _)
  · apply Outcome.alike_fail

theorem alike_classSteps_bare (id : ClassId) :
  List.Forall₂ (Step.Alike Path.SamePlace) ((untilWordEnd lexicon).classSteps id)
    ((untilWordEnd lexicon.bare).classSteps id)
  := by
  rw [classSteps, classSteps, untilWordEnd, untilWordEnd]
  dsimp only
  rw [lexicon.get?_bare]
  cases lexicon.get? id with
  | none => exact List.Forall₂.nil
  | some c =>
      dsimp only [Option.map_some, NamedClass.bare]
      rw [List.map_map]
      apply forall₂_map_map
      intro m _
      apply alike_memberStep_bare

/-- Each leaf takes the same as its bare form. -/
theorem alike_leaf_bare (reps : Reps) (content : Leaf) :
  Step.Alike Path.SamePlace ((untilWordEnd lexicon).leaf reps content)
    ((untilWordEnd lexicon.bare).leaf reps content.bare)
  := by
  have hleft : ∀ p q, Path.SamePlace p q → p.left = q.left := fun p q h => h.left_eq
  have henough := enough_eq_of_samePlace lexicon
  cases content with
  | byte b => apply alike_downFromMost hleft henough (Path.rel_copyByte? _)
  | set s => apply alike_downFromMost hleft henough (Path.rel_copyByte? _)
  | literal text replacement =>
      simp only [Leaf.bare, leaf, replaceText]
      split
      · intro k k' hk p q hpq
        apply hk _ _ (hpq.advance 0 _ _)
      · apply alike_downFromMost hleft henough (Path.rel_replaceText? text _ _)
  | memberOf id => apply Step.Alike.repeated hleft henough (alike_classSteps_bare lexicon id)
  | wordEnd => apply alike_wordEnd hleft (fun p q h => congrArg List.isEmpty h.rest)
  | remainder =>
      apply alike_remainder hleft
      intro p q hpq
      rw [← hpq.left_eq]
      apply hpq.advance

end Search

/-! ### Matches -/

/-- Whether something is captured under a number is seen without the texts. -/
theorem Captures.isSome_get? {α : Type} (captures : Captures α) (number : Nat) :
  (captures.get? number).isSome = (captures.map Option.isSome)[number]?.getD false
  := by
  rw [get?, Vector.getElem?_map]
  cases captures[number]? with
  | none => rfl
  | some text => rfl

/-- The matches take equally much, and have captured under the same numbers. -/
structure Match.SameShape (m m' : Match) : Prop where
  length : m.length = m'.length
  filled : ∀ number, (m.captures.get? number).isSome = (m'.captures.get? number).isSome

theorem Match.sameShape_ofPath (word : Bytes) {p q : Path} (h : p.SamePlace q) :
  SameShape (ofPath word p) (ofPath word q)
  where
  length := congrArg (word.length - ·) h.left_eq
  filled number := by
    have hdecode : ∀ p : Path, (ofPath word p).captures.map Option.isSome =
        (p.captures.map Option.isSome).setIfInBounds 0 true := by
      intro p
      dsimp only [ofPath, Captures.put]
      rw [Vector.map_setIfInBounds, Vector.map_map]
      congr 2
      funext text
      apply Option.isSome_map
    rw [Captures.isSome_get?, Captures.isSome_get?, hdecode, hdecode, h.filled]

namespace Pattern

/-- A pattern and its bare form find paths to the same place, or both find none. -/
theorem rel_longestPath?_bare (pattern : Pattern) (lexicon : Lexicon) (word : Bytes) :
  Option.Rel Path.SamePlace (pattern.longestPath? lexicon word)
    (pattern.bare.longestPath? lexicon.bare word)
  := by
  apply Search.rel_found_of_alter (fun p q h => h.left_eq) (Search.enough_eq_of_samePlace lexicon)
  · intro p q p' q' _ h number replacement
    apply h.leaveBranch
  · intro content reps _
    apply Search.alike_leaf_bare
  · exact ⟨rfl, rfl⟩

/-- Patterns that differ only in what their literals and branches are replaced by, with classes
that differ only in what their members are replaced by, match the same words.  The matches take
equally much of a word and have captured under the same numbers. -/
theorem sameShape_longestMatch?_of_bare {pattern pattern' : Pattern} {lexicon lexicon' : Lexicon}
    (hpattern : pattern.bare = pattern'.bare) (hlexicon : lexicon.bare = lexicon'.bare)
    (word : Bytes) :
  Option.Rel Match.SameShape (pattern.longestMatch? lexicon word)
    (pattern'.longestMatch? lexicon' word)
  := by
  have h := pattern.rel_longestPath?_bare lexicon word
  have h' := pattern'.rel_longestPath?_bare lexicon' word
  rw [← hpattern, ← hlexicon] at h'
  rw [longestMatch?, longestMatch?]
  generalize pattern.longestPath? lexicon word = found at h ⊢
  generalize pattern'.longestPath? lexicon' word = found' at h' ⊢
  generalize pattern.bare.longestPath? lexicon.bare word = bare at h h'
  cases h with
  | none =>
      cases h' with
      | none => exact Option.Rel.none
  | some hp =>
      cases h' with
      | some hq =>
          apply Option.Rel.some
          apply Match.sameShape_ofPath
          exact ⟨hp.rest.trans hq.rest.symm, hp.filled.trans hq.filled.symm⟩

/-- Replacements of literals, branches and members that were changed, added and left out. -/
theorem sameShape_longestMatch?_of_changed_replacements :
  let r := Reading.ofSource (Utf8.encode "(a|x,<v:bc|y,b>,|)+(d)?ef") .empty
  let r' := Reading.ofSource (Utf8.encode "(a,<v:bc,b|zz>,)+(d|w)?ef") .empty
  let word := Utf8.encode "bcabefg"
  r.pattern.bare = r'.pattern.bare ∧ r.lexicon.bare = r'.lexicon.bare ∧
    Option.Rel Match.SameShape (r.pattern.longestMatch? r.lexicon word)
      (r'.pattern.longestMatch? r'.lexicon word) ∧
    (r.pattern.longestMatch? r.lexicon word).map Match.output = some "yxbef" ∧
    (r'.pattern.longestMatch? r'.lexicon word).map Match.output = some "bcazzef"
  := by
  intro r r' word
  have hpattern : r.pattern.bare = r'.pattern.bare := by decide +kernel
  have hlexicon : r.lexicon.bare = r'.lexicon.bare := by decide +kernel
  use hpattern, hlexicon, sameShape_longestMatch?_of_bare hpattern hlexicon word
  exact ⟨by decide +kernel, by decide +kernel⟩

end Pattern

end Respell
