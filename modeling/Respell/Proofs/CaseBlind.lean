import Respell.Proofs.ByteSet
import Respell.Proofs.Search.Alike
import Respell.Proofs.Source.Leaves
import Respell.Rule

/-!
# Matching is blind to case

Two words that differ in the case of their letters only are matched in the same way.  The
searches along them take the same steps: what they give out and capture on the way differs
in case only, and no comparison, no set and no class without regard to case tells the words
apart.
-/

namespace Respell

/-! ### Sets -/

/-- The sets that one can get hold of: those made by the operations on sets, and those in
patterns that were read. -/
inductive ByteSet.Made : ByteSet → Prop
  | empty : Made .empty
  | full : Made .full
  | insertBothCases {s : ByteSet} (h : Made s) (b : UInt8) : Made (s.insertBothCases b)
  | insertBetween {s : ByteSet} (h : Made s) (low high : UInt8) :
      Made (s.insertBetween low high)
  | complement {s : ByteSet} (h : Made s) : Made s.complement
  | read {s : ByteSet} {reps : Reps} {source : Bytes} {lexicon : Lexicon}
      (h : (Node.leaf (.set s) reps).Occurs (Reading.ofSource source lexicon).pattern.nodes) :
      Made s

/-- A set in a pattern that was read does not tell cases apart. -/
theorem Source.Written.caseBlind {s : ByteSet} {reps : Reps} (h : Written (.set s) reps) :
  s.CaseBlind
  := by
  cases h with
  | wildcard => apply ByteSet.caseBlind_full
  | set negated items => apply ByteSet.caseBlind_ofItems

theorem ByteSet.Made.caseBlind {s : ByteSet} (h : Made s) :
  s.CaseBlind
  := by
  induction h with
  | empty => apply caseBlind_empty
  | full => apply caseBlind_full
  | insertBothCases _ b ih => apply ih.insertBothCases
  | insertBetween _ low high ih => apply ih.insertBetween
  | complement _ ih => apply ih.complement
  | read h => apply (Reading.leaves_ofSource _ _ _ _ h).caseBlind

/-! ### Paths -/

/-- Changing all captures and then capturing a changed text is capturing the text and then
changing all captures. -/
theorem Captures.map_put {α β : Type} (f : α → β) (captures : Captures α) (number : Nat)
    (a : α) :
  Vector.map (Option.map f) (captures.put number a) =
    Captures.put (Vector.map (Option.map f) captures) number (f a)
  := by
  apply Vector.map_setIfInBounds

namespace Path

/-- The path in small letters. -/
def lower (p : Path) : Path :=
  ⟨p.rest.map Byte.lower, p.given.map Byte.lower, p.captures.map (·.map (·.map Byte.lower))⟩

theorem left_lower (p : Path) :
  p.lower.left = p.left
  := List.length_map _

theorem lower_advance (p : Path) (n : Nat) (text : Bytes) :
  (p.advance n text).lower = p.lower.advance n (text.map Byte.lower)
  := by
  simp only [lower, advance, List.map_drop, List.map_append, List.map_reverse]

theorem lower_leaveBranch (p : Path) (entry : Bytes) (number : Nat)
    (replacement : Option Bytes) :
  (p.leaveBranch entry number replacement).lower =
    p.lower.leaveBranch (entry.map Byte.lower) number (replacement.map (·.map Byte.lower))
  := by
  cases replacement with
  | none => simp [lower, leaveBranch, Captures.map_put, List.map_take]
  | some r => simp [lower, leaveBranch, Captures.map_put]

theorem lower_copyByte? {accepts : UInt8 → Bool}
    (h : ∀ b, accepts (Byte.lower b) = accepts b) (p : Path) :
  (copyByte? accepts p).map lower = copyByte? accepts p.lower
  := by
  obtain ⟨rest, given, captures⟩ := p
  cases rest with
  | nil => rfl
  | cons b rest =>
      simp only [copyByte?, lower, List.map_cons, h b]
      split
      · rfl
      · rfl

/-- Whether a text leads another one without regard to case does not depend on the case of
the other one. -/
theorem folded_leads_lower (s t : Bytes) :
  Casing.folded.leads s (t.map Byte.lower) = Casing.folded.leads s t
  := by
  apply Bool.eq_iff_iff.mpr
  rw [Casing.leads_iff, Casing.leads_iff, List.map_map]
  have hkey : Casing.folded.key ∘ Byte.lower = Casing.folded.key := funext Byte.lower_lower
  rw [hkey]

theorem lower_replaceText? (text replacement : Bytes) (p : Path) :
  (replaceText? text replacement p).map lower =
    replaceText? text (replacement.map Byte.lower) p.lower
  := by
  have hlead : Casing.folded.leads text p.lower.rest = Casing.folded.leads text p.rest :=
    folded_leads_lower text p.rest
  rw [replaceText?, replaceText?, hlead]
  split
  · rw [Option.map_some, lower_advance]
  · rfl

/-- The paths differ in case only. -/
def SameUpToCase (p q : Path) : Prop := p.lower = q.lower

theorem SameUpToCase.left_eq {p q : Path} (h : SameUpToCase p q) :
  p.left = q.left
  := by
  rw [← left_lower p, ← left_lower q, h]

theorem SameUpToCase.enough_eq {p q : Path} (h : SameUpToCase p q) :
  p.rest.isEmpty = q.rest.isEmpty
  := by
  have hrest : p.rest.map Byte.lower = q.rest.map Byte.lower := congrArg rest h
  rw [← List.isEmpty_map (f := Byte.lower), hrest, List.isEmpty_map]

theorem SameUpToCase.advance {p q : Path} (h : SameUpToCase p q) (n : Nat) {s t : Bytes}
    (hst : s.map Byte.lower = t.map Byte.lower) :
  SameUpToCase (p.advance n s) (q.advance n t)
  := by
  rw [SameUpToCase, lower_advance, lower_advance, h, hst]

theorem SameUpToCase.leaveBranch {p q p' q' : Path} (h : SameUpToCase p q)
    (h' : SameUpToCase p' q') (number : Nat) (replacement : Option Bytes) :
  SameUpToCase (p'.leaveBranch p.given number replacement)
    (q'.leaveBranch q.given number replacement)
  := by
  have hgiven : p.given.map Byte.lower = q.given.map Byte.lower := congrArg given h
  rw [SameUpToCase, lower_leaveBranch, lower_leaveBranch, h', hgiven]

/-- A step that is the same in small letters leads to paths that differ in case only. -/
theorem rel_of_lower {step? step?' : Path → Option Path}
    (h : ∀ p, (step? p).map lower = step?' p.lower) (p q : Path) (hpq : SameUpToCase p q) :
  Option.Rel SameUpToCase (step? p) (step? q)
  := by
  have hsteps : (step? p).map lower = (step? q).map lower := by rw [h, h, hpq]
  cases hp : step? p with
  | none =>
      rw [hp] at hsteps
      rw [Option.map_eq_none_iff.mp hsteps.symm]
      exact Option.Rel.none
  | some p' =>
      rw [hp] at hsteps
      obtain ⟨q', hq', hlower⟩ := Option.map_eq_some_iff.mp hsteps.symm
      rw [hq']
      exact Option.Rel.some hlower.symm

end Path

/-! ### Searches -/

namespace Search

variable (lexicon : Lexicon)

/-- The step of a member of a class without regard to case. -/
theorem alike_memberStep (m : Member) :
  Step.Alike Path.SameUpToCase (memberStep .folded m) (memberStep .folded m)
  := by
  intro k k' hk p q hpq
  have hrest : p.rest.map Byte.lower = q.rest.map Byte.lower := congrArg Path.rest hpq
  have hlead : Casing.folded.leads m.text p.rest = Casing.folded.leads m.text q.rest := by
    rw [← Path.folded_leads_lower, hrest, Path.folded_leads_lower]
  rw [memberStep, memberStep, hlead]
  split
  · apply hk _ _ (hpq.advance _ rfl)
  · apply Outcome.alike_fail

/-- The step of a leaf of which neither the set, if it is one, nor the class tells cases
apart. -/
theorem alike_leaf {content : Leaf} (reps : Reps)
    (hset : ∀ s, content = .set s → s.CaseBlind)
    (hclass : ∀ id, content = .memberOf id → ∀ c ∈ lexicon.get? id, c.casing = .folded) :
  Step.Alike Path.SameUpToCase ((untilWordEnd lexicon).leaf reps content)
    ((untilWordEnd lexicon).leaf reps content)
  := by
  have hleft : ∀ p q, Path.SameUpToCase p q → p.left = q.left := fun p q h => h.left_eq
  have henough : ∀ p q, Path.SameUpToCase p q →
      (untilWordEnd lexicon).enough p = (untilWordEnd lexicon).enough q :=
    fun p q h => h.enough_eq
  cases content with
  | byte b =>
      apply alike_downFromMost hleft henough (Path.rel_of_lower (Path.lower_copyByte? _))
      intro c
      apply decide_eq_decide.mpr
      rw [Casing.key, Byte.lower_lower]
  | set s =>
      apply alike_downFromMost hleft henough (Path.rel_of_lower (Path.lower_copyByte? _))
      intro c
      apply hset s rfl _ _ (Byte.lower_lower c)
  | literal text replacement =>
      simp only [leaf, replaceText]
      split
      · intro k k' hk p q hpq
        apply hk _ _ (hpq.advance 0 rfl)
      · apply alike_downFromMost hleft henough
        apply Path.rel_of_lower (Path.lower_replaceText? text replacement)
  | memberOf id =>
      apply Step.Alike.repeated hleft henough
      apply List.forall₂_same.mpr
      intro step hstep
      rw [classSteps] at hstep
      split at hstep
      · cases hstep
      · next c hc =>
        obtain ⟨m, -, rfl⟩ := List.mem_map.mp hstep
        rw [hclass id rfl c hc]
        apply alike_memberStep
  | wordEnd => apply alike_wordEnd hleft (fun p q h => h.enough_eq)
  | remainder =>
      apply alike_remainder hleft
      intro p q hpq
      rw [← hpq.left_eq]
      apply hpq.advance
      apply congrArg Path.rest hpq

end Search

/-! ### Matches and renderings -/

/-- The match with all texts in small letters. -/
def Match.toLower (m : Match) : Match :=
  ⟨m.length, m.output.toLower, m.captures.map (·.map String.toLower)⟩

/-- The rendering with its text in small letters. -/
def Rendering.toLower (r : Rendering) : Rendering := ⟨r.text.toLower, r.warnings⟩

theorem Match.toLower_ofPath {word word' : Bytes} (hword : word.length = word'.length)
    {p q : Path} (h : p.SameUpToCase q) :
  (ofPath word p).toLower = (ofPath word' q).toLower
  := by
  have houtput : (Utf8.decode p.output).toLower = (Utf8.decode q.output).toLower := by
    apply Utf8.toLower_decode_of_case
    have hgiven : p.given.map Byte.lower = q.given.map Byte.lower := congrArg Path.given h
    rw [Path.output, Path.output, List.map_reverse, List.map_reverse, hgiven]
  have hcaptures : (p.captures.map (·.map Utf8.decode)).map (·.map String.toLower) =
      (q.captures.map (·.map Utf8.decode)).map (·.map String.toLower) := by
    have hlower : p.captures.map (·.map (·.map Byte.lower)) =
        q.captures.map (·.map (·.map Byte.lower)) := congrArg Path.captures h
    apply Vector.ext
    intro i hi
    have hi' := congrArg (fun captures => captures[i]) hlower
    simp only [Vector.getElem_map] at hi' ⊢
    cases hp : p.captures[i] with
    | none =>
        rw [hp] at hi'
        rw [Option.map_eq_none_iff.mp hi'.symm]
    | some s =>
        rw [hp] at hi'
        obtain ⟨t, ht, hst⟩ := Option.map_eq_some_iff.mp hi'.symm
        rw [ht, Option.map_some, Option.map_some, Option.map_some, Option.map_some,
          Utf8.toLower_decode_of_case hst]
  simp only [toLower, ofPath]
  rw [Captures.map_put, Captures.map_put, hcaptures, houtput, h.left_eq, hword]

theorem toLower_append (s t : String) :
  (s ++ t).toLower = s.toLower ++ t.toLower
  := by
  apply String.toList_injective
  simp [Utf8.toList_toLower]

namespace Template

/-- Filling a template in with captures that differ in case only gives texts that differ in
case only, with the same warnings. -/
theorem toLower_fill (template : String) {captures captures' : Captures String}
    (h : captures.map (·.map String.toLower) = captures'.map (·.map String.toLower)) :
  (fill template captures).toLower = (fill template captures').toLower
  := by
  have hget : ∀ number, (captures.get? number).map String.toLower =
      (captures'.get? number).map String.toLower := by
    intro number
    have hnumber := congrArg (fun captures => captures[number]?.join) h
    simpa only [Captures.get?, Vector.getElem?_map,
      Option.join_map_eq_map_join] using hnumber
  have hwarning : ∀ piece : Piece, piece.warning? captures = piece.warning? captures' := by
    intro piece
    cases piece with
    | char c => rfl
    | capture number =>
        have hsome := congrArg Option.isSome (hget number)
        rw [Option.isSome_map, Option.isSome_map] at hsome
        rw [Piece.warning?, Piece.warning?, hsome]
  have htext : ∀ piece : Piece,
      (piece.text captures).toLower = (piece.text captures').toLower := by
    intro piece
    cases piece with
    | char c => rfl
    | capture number =>
        have hgetD : ∀ a : Option String,
            (a.getD "").toLower = (a.map String.toLower).getD "".toLower := by
          intro a
          cases a with
          | none => rfl
          | some s => rfl
        rw [Piece.text, Piece.text, hgetD, hgetD, hget]
  have hjoin : ∀ pieces : List Piece,
      (String.join (pieces.map (·.text captures))).toLower =
        (String.join (pieces.map (·.text captures'))).toLower := by
    intro pieces
    induction pieces with
    | nil => rfl
    | cons piece pieces ih =>
        rw [List.map_cons, List.map_cons, String.join_cons, String.join_cons, toLower_append,
          toLower_append, ih, htext]
  have hwarnings : (Piece.warning? captures) = Piece.warning? captures' := funext hwarning
  simp only [fill, Rendering.toLower]
  rw [hjoin, hwarnings]

end Template

namespace Pattern

variable {pattern : Pattern} {lexicon : Lexicon} {word word' : Bytes}

theorem toLower_longestMatch?
    (hsets : ∀ s reps, (Node.leaf (.set s) reps).Occurs pattern.nodes → s.Made)
    (hclasses : ∀ id reps, (Node.leaf (.memberOf id) reps).Occurs pattern.nodes →
      ∀ c ∈ lexicon.get? id, c.casing = .folded)
    (hword : Casing.folded.same word word' = true) :
  (pattern.longestMatch? lexicon word).map Match.toLower =
    (pattern.longestMatch? lexicon word').map Match.toLower
  := by
  have hstart : (Path.start word).SameUpToCase (.start word') := by
    have hlower : word.map Byte.lower = word'.map Byte.lower := Casing.same_iff.mp hword
    rw [Path.SameUpToCase, Path.lower, Path.lower, Path.start, Path.start]
    rw [hlower]
  have hleaf : ∀ content reps, (Node.leaf content reps).Occurs pattern.nodes →
      Step.Alike Path.SameUpToCase ((Search.untilWordEnd lexicon).leaf reps content)
        ((Search.untilWordEnd lexicon).leaf reps content) := by
    intro content reps h
    apply Search.alike_leaf lexicon reps
    · rintro s rfl
      apply (hsets s reps h).caseBlind
    · rintro id rfl
      apply hclasses id reps h
  have hfound : Option.Rel Path.SameUpToCase (pattern.longestPath? lexicon word)
      (pattern.longestPath? lexicon word') := by
    apply Search.rel_found_of_leaves (fun p q h => h.left_eq) (fun p q h => h.enough_eq) _
      hleaf hstart
    exact fun p q p' q' h h' number replacement => h.leaveBranch h' number replacement
  rw [longestMatch?, longestMatch?]
  obtain ⟨hp, hq⟩ | ⟨p, q, hp, hq, hpq⟩ := eq_none_or_eq_some_of_rel hfound
  · rw [hp, hq]
    rfl
  · have hlength := Casing.length_eq_of_same hword
    rw [hp, hq, Option.map_some, Option.map_some, Option.map_some, Option.map_some,
      Match.toLower_ofPath hlength hpq]

/-- A match takes as much of a word in small letters, and all if it takes all. -/
theorem toLower_wholeMatch?
    (h : (pattern.longestMatch? lexicon word).map Match.toLower =
      (pattern.longestMatch? lexicon word').map Match.toLower)
    (hword : word.length = word'.length) :
  (pattern.wholeMatch? lexicon word).map Match.toLower =
    (pattern.wholeMatch? lexicon word').map Match.toLower
  := by
  have hwhole : ∀ word : Bytes, (pattern.wholeMatch? lexicon word).map Match.toLower =
      ((pattern.longestMatch? lexicon word).map Match.toLower).filter
        (·.length = word.length) := by
    intro word
    rw [wholeMatch?, Option.filter_map]
    rfl
  rw [hwhole, hwhole, h, hword]

/-- Words that differ in case only are matched in the same way by a pattern whose sets were
made or read and whose classes are without regard to case: the matches take equally much,
and give out and capture texts that differ in case only.  A rule respells the words in the
same way up to case, with the same warnings. -/
theorem toLower_longestMatch?_and_respell?
    (hsets : ∀ s reps, (Node.leaf (.set s) reps).Occurs pattern.nodes → s.Made)
    (hclasses : ∀ id reps, (Node.leaf (.memberOf id) reps).Occurs pattern.nodes →
      ∀ c ∈ lexicon.get? id, c.casing = .folded)
    (hword : Casing.folded.same word word' = true) :
  (pattern.longestMatch? lexicon word).map Match.toLower =
      (pattern.longestMatch? lexicon word').map Match.toLower ∧
    ∀ {τ : Type} (r : Rule τ), r.pattern.getD .empty = pattern → r.lexicon = lexicon →
      (r.respell? word).map Rendering.toLower = (r.respell? word').map Rendering.toLower
  := by
  have hlongest := toLower_longestMatch? hsets hclasses hword
  use hlongest
  rintro τ r rfl rfl
  have hwhole := toLower_wholeMatch? hlongest (Casing.length_eq_of_same hword)
  rw [Rule.respell?, Rule.respell?, Rule.wholeMatch?, Rule.wholeMatch?]
  cases hm : (r.pattern.getD empty).wholeMatch? r.lexicon word with
  | none =>
      rw [hm] at hwhole
      rw [Option.map_eq_none_iff.mp hwhole.symm]
  | some m =>
      rw [hm] at hwhole
      obtain ⟨m', hm', hlower⟩ := Option.map_eq_some_iff.mp hwhole.symm
      have hcaptures := congrArg Match.captures hlower
      rw [hm', Option.map_some, Option.map_some, Option.map_some, Option.map_some,
        Template.toLower_fill r.template hcaptures]

/-- A rule with a set, a class and a group. -/
theorem toLower_respell?_of_set_and_class :
  let r := Rule.ofSource (Utf8.encode "(h|j)[a-c]*<v:oo|u>.") "%1-%0" ()
  let word := Utf8.encode "HaBooK"
  let word' := Utf8.encode "hAbOOk"
  Casing.folded.same word word' = true ∧
    (r.respell? word).map Rendering.toLower = (r.respell? word').map Rendering.toLower ∧
    r.respell? word = some ⟨"j-jaBuK", []⟩ ∧ r.respell? word' = some ⟨"j-jAbuk", []⟩
  := by
  intro r word word'
  have hword : Casing.folded.same word word' = true := by decide +kernel
  have hpattern : r.pattern.getD .empty =
      (Reading.ofSource (Utf8.encode "(h|j)[a-c]*<v:oo|u>.") .empty).pattern := by
    decide +kernel
  have hsets : ∀ s reps, (Node.leaf (.set s) reps).Occurs (r.pattern.getD .empty).nodes →
      s.Made := fun s reps h => .read (hpattern ▸ h)
  have hclasses : ∀ id reps,
      (Node.leaf (.memberOf id) reps).Occurs (r.pattern.getD .empty).nodes →
        ∀ c ∈ r.lexicon.get? id, c.casing = .folded := by
    have hfolded : ∀ c ∈ r.lexicon.classes, c.casing = .folded := by decide +kernel
    intro id reps _ c hc
    apply hfolded c (List.mem_of_getElem? hc)
  have h := toLower_longestMatch?_and_respell? hsets hclasses hword
  exact ⟨hword, h.2 r rfl rfl, by decide +kernel, by decide +kernel⟩

end Pattern

end Respell
