import Respell.Proofs.NamedClass
import Respell.Proofs.Participation
import Respell.Proofs.Source.Causes
import Respell.Proofs.WellFormed
import Respell.Rule

/-!
# References in a template

A template is looked through twice, when a rule is made and when it is filled in, and both times
the same references are found.  Those beyond the groups of the pattern are never filled in.  So
the warnings of a rule foretell a part of the warnings about every word, and all others are about
groups that took no part in the match.
-/

namespace Respell

namespace Template

/-- The number of the capture that a piece refers to. -/
def Piece.number? : Piece → Option Nat
  | .char _ => none
  | .capture number => some number

theorem number?_escaped (c : Char) :
  (escaped c).number? = digit? c
  := by
  rw [escaped]
  cases digit? c with
  | none => rfl
  | some number => rfl

/-- The references that are found without cutting a template into pieces are those of its
pieces. -/
theorem references_eq (cs : List Char) :
  references cs = (pieces cs).filterMap Piece.number?
  := by
  fun_induction references cs with
  | case1 => rfl
  | case2 c => rfl
  | case3 d rest ih =>
      rw [pieces, if_pos rfl, List.filterMap_cons, number?_escaped, ih]
      cases digit? d with
      | none => rfl
      | some number => rfl
  | case4 c d rest hc ih =>
      rw [pieces, if_neg hc, List.filterMap_cons, ih]
      rfl

theorem lt_of_digit? {c : Char} {number : Nat} (h : digit? c = some number) :
  number < captureCount
  := by
  rw [digit?] at h
  split at h
  · next hdigit =>
    obtain rfl := Option.some.inj h
    have hbounds : 48 ≤ c.toNat ∧ c.toNat ≤ 57 := by
      simpa [Char.isDigit, UInt32.le_iff_toNat_le] using hdigit
    have hzero : '0'.toNat = 48 := rfl
    rw [captureCount, hzero]
    omega
  · cases h

/-- References have one digit, so they are all to captures that there are. -/
theorem lt_of_mem_references {cs : List Char} {number : Nat} (h : number ∈ references cs) :
  number < captureCount
  := by
  fun_induction references cs with
  | case1 => cases h
  | case2 c => cases h
  | case3 d rest ih =>
      obtain h | h := List.mem_append.mp h
      · apply lt_of_digit? (Option.mem_toList.mp h)
      · apply ih h
  | case4 c d rest _ ih => apply ih h

/-- A filled template has a warning for each reference to a capture that is not set. -/
theorem warnings_fill (template : String) (captures : Captures String) :
  (fill template captures).warnings =
    ((numbers template).filter fun i => (captures.get? i).isNone).map .captureNotSet
  := by
  rw [fill, numbers, references_eq]
  dsimp only
  induction pieces template.toList with
  | nil => rfl
  | cons piece pieces ih =>
      cases piece with
      | char c => exact ih
      | capture number =>
          rw [List.filterMap_cons, List.filterMap_cons, ih, Piece.warning?, Piece.number?]
          dsimp only
          rw [List.filter_cons]
          cases captures.get? number with
          | none => rfl
          | some text => rfl

end Template

/-! ### Rules whose classes are changed -/

/-- The number of the group that the warning says a pattern does not have. -/
def Warning.missingGroup? : Warning → Option Nat
  | noSuchGroup index => some index
  | _ => none

/-- No warning about a source says that a group is missing. -/
theorem Warning.missingGroup?_of_causedIn {source : Bytes} {w : Warning} (h : w.CausedIn source) :
  w.missingGroup? = none
  := by
  cases w with
  | noSuchGroup index => cases h
  | _ => rfl

namespace Rule

variable {τ : Type}

/-- The rule after a change of one of its classes. -/
def change (r : Rule τ) (name : Bytes) : NamedClass.Change → Rule τ
  | .offer text replacement => (r.extendClass name (.ofText text replacement)).2
  | .setCasing casing => r.setCasing name casing

/-- The rule after some changes of its classes, one after the other. -/
def after (r : Rule τ) (history : List (Bytes × NamedClass.Change)) : Rule τ :=
  history.foldl (fun r change => r.change change.1 change.2) r

/-- Changes of its classes leave the rest of a rule. -/
theorem exists_after (r : Rule τ) (history : List (Bytes × NamedClass.Change)) :
  ∃ lexicon, r.after history = { r with lexicon }
  := by
  induction history generalizing r with
  | nil => exact ⟨r.lexicon, rfl⟩
  | cons first history ih =>
      obtain ⟨name, x⟩ := first
      have hfirst : ∃ lexicon, r.change name x = { r with lexicon } := by
        cases x with
        | offer text replacement => exact ⟨_, rfl⟩
        | setCasing casing => exact ⟨_, rfl⟩
      obtain ⟨lexicon, hfirst⟩ := hfirst
      obtain ⟨lexicon', hmore⟩ := ih (r.change name x)
      use lexicon'
      rw [after, List.foldl_cons]
      exact hmore.trans (by rw [hfirst])

section After

variable (r : Rule τ) (history : List (Bytes × NamedClass.Change))

@[simp]
theorem pattern_after :
  (r.after history).pattern = r.pattern
  := by
  obtain ⟨lexicon, h⟩ := r.exists_after history
  rw [h]

@[simp]
theorem template_after :
  (r.after history).template = r.template
  := by
  obtain ⟨lexicon, h⟩ := r.exists_after history
  rw [h]

@[simp]
theorem warnings_after :
  (r.after history).warnings = r.warnings
  := by
  obtain ⟨lexicon, h⟩ := r.exists_after history
  rw [h]

end After

variable (source : Bytes) (template : String) (tag : τ)

/-- The pattern of a rule without a pattern is read from its source as well. -/
theorem pattern_ofSource :
  (ofSource source template tag).pattern.getD .empty = (Reading.ofSource source .empty).pattern
  := by
  have hnumbers := (Reading.wellFormed_pattern source .empty).numbers
  rw [ofSource]
  dsimp only
  generalize (Reading.ofSource source .empty).pattern = pattern at hnumbers ⊢
  split
  · next hempty =>
    obtain ⟨nodes, groups⟩ := pattern
    obtain rfl : nodes = [] := List.isEmpty_iff.mp hempty
    have hlength := congrArg List.length hnumbers
    rw [List.length_range'] at hlength
    obtain rfl : 0 = groups := hlength
    rfl
  · rfl

/-- The groups that a new rule has warnings about are those beyond the groups of its pattern
that its template refers to. -/
theorem missingGroups_ofSource :
  (ofSource source template tag).warnings.filterMap Warning.missingGroup? =
    (Template.numbers template).filter
      (((ofSource source template tag).pattern.getD .empty).groups < ·)
  := by
  have hsource : (Reading.ofSource source .empty).warnings.filterMap Warning.missingGroup? = [] := by
    apply List.filterMap_eq_nil_iff.mpr
    intro w hw
    apply Warning.missingGroup?_of_causedIn (Reading.causedIn_of_mem_warnings source .empty w hw)
  rw [pattern_ofSource, ofSource]
  dsimp only
  rw [List.filterMap_append, hsource, List.nil_append, templateWarnings, List.filterMap_map]
  apply List.filterMap_some

/-- The groups of the pattern of a new rule are numbered from 1 on. -/
theorem numbers_ofSource :
  let pattern := (ofSource source template tag).pattern.getD .empty
  Node.groupNumbersOfChain pattern.nodes = List.range' 1 pattern.groups
  := by
  rw [pattern_ofSource]
  exact (Reading.wellFormed_pattern source .empty).numbers

/-- A word that a rule matches is respelled with a warning for each reference of the template to
a capture that is not set.  Those beyond the groups of the pattern are the ones that the rule has
warned of when it was made.  Each of the others is the number of a group that took no part in the
match.  Number 0 is in neither kind of warning. -/
theorem warnings_respell?_after {source : Bytes} {template : String} {tag : τ}
    {history : List (Bytes × NamedClass.Change)} {word : Bytes} {rendering : Rendering}
    (h : ((ofSource source template tag).after history).respell? word = some rendering) :
  let r := (ofSource source template tag).after history
  let pattern := r.pattern.getD .empty
  ∃ m ∈ r.wholeMatch? word,
    let unset := (Template.numbers template).filter fun i => (m.captures.get? i).isNone
    rendering.warnings = unset.map .captureNotSet ∧
    r.warnings.filterMap Warning.missingGroup? = unset.filter (pattern.groups < ·) ∧
    (∀ i ∈ unset, i ≤ pattern.groups →
      1 ≤ i ∧ i ∈ Node.groupNumbersOfChain pattern.nodes ∧
        m.MadeWithout pattern r.lexicon word i) ∧
    .captureNotSet 0 ∉ rendering.warnings ∧ .noSuchGroup 0 ∉ r.warnings
  := by
  intro r pattern
  obtain ⟨m, hm, rfl⟩ := Option.map_eq_some_iff.mp h
  use m, hm
  intro unset
  have hpattern : pattern = (ofSource source template tag).pattern.getD .empty :=
    congrArg (Option.getD · _) (pattern_after _ history)
  have hnumbers : Node.groupNumbersOfChain pattern.nodes = List.range' 1 pattern.groups := by
    rw [hpattern]
    exact numbers_ofSource source template tag
  have hlongest : pattern.longestMatch? r.lexicon word = some m :=
    (Option.filter_eq_some_iff.mp hm).1
  obtain ⟨hzero, hbeyond, hwithout⟩ := Pattern.captures_of_numbers hnumbers hlongest
  have hfill : (Template.fill r.template m.captures).warnings = unset.map .captureNotSet := by
    rw [template_after, Template.warnings_fill]
    rfl
  have hmissing : r.warnings.filterMap Warning.missingGroup? =
      (Template.numbers template).filter (pattern.groups < ·) := by
    rw [warnings_after, hpattern]
    exact missingGroups_ofSource source template tag
  have hunset : ∀ i ∈ unset, i < captureCount ∧ m.captures.get? i = none := by
    intro i hi
    obtain ⟨hmem, hnone⟩ := List.mem_filter.mp hi
    exact ⟨Template.lt_of_mem_references hmem, Option.isNone_iff_eq_none.mp hnone⟩
  refine ⟨hfill, ?_, ?_, ?_, ?_⟩
  · -- All references beyond the groups are to captures that are not set.
    rw [hmissing, List.filter_filter]
    apply List.filter_congr
    intro i _
    by_cases hi : pattern.groups < i
    · simp [hi, hbeyond i hi]
    · simp [hi]
  · intro i hi
    obtain ⟨hlt, hnone⟩ := hunset i hi
    exact hwithout i hlt hnone
  · rw [hfill]
    intro hmem
    obtain ⟨i, hi, heq⟩ := List.mem_map.mp hmem
    obtain rfl : i = 0 := Warning.captureNotSet.inj heq
    exact hzero (hunset 0 hi).2
  · intro hmem
    have hindex : 0 ∈ r.warnings.filterMap Warning.missingGroup? :=
      List.mem_filterMap.mpr ⟨_, hmem, rfl⟩
    rw [hmissing] at hindex
    exact absurd (of_decide_eq_true (List.mem_filter.mp hindex).2) (Nat.not_lt_zero _)

/-- References to groups that the pattern does not have, that took no part in the match and that
are set, around escapes of other characters. -/
theorem warnings_respell?_after_of_escapes :
  let source := Utf8.encode "(a)?(<v:b>)*(c)?"
  let template := "%2%1%%1%0%é%7%3%7%"
  let history : List (Bytes × NamedClass.Change) :=
    [(Utf8.encode "v", .offer (Utf8.encode "d") none), (Utf8.encode "v", .setCasing .exact)]
  let r := (ofSource source template ()).after history
  let rendering : Rendering :=
    ⟨"d%1bdé%", [.captureNotSet 1, .captureNotSet 7, .captureNotSet 3, .captureNotSet 7]⟩
  r.respell? (Utf8.encode "bd") = some rendering ∧
    ∃ m ∈ r.wholeMatch? (Utf8.encode "bd"),
      rendering.warnings = ((Template.numbers template).filter
        fun i => (m.captures.get? i).isNone).map .captureNotSet
  := by
  intro source template history r rendering
  have h : r.respell? (Utf8.encode "bd") = some rendering := by decide +kernel
  obtain ⟨m, hm, hwarnings, -⟩ := warnings_respell?_after h
  exact ⟨h, m, hm, hwarnings⟩

end Rule

end Respell
