import Mathlib.Data.List.Forall2
import Respell.CommandLine.Options
import Respell.Proofs.Text.Line

/-!
# What arguments give

Arguments are read if they are a series of settings, each of them an option and its value.  What
they give is the last pattern, the last template or else the default one, and all additions in
order.  The value of an addition is cut at the first equals sign, and then at the first bar.
-/

namespace Respell.CommandLine

/-! ### Additions -/

section Split

variable {separator : Char} {s : List Char}

theorem splitFirst?_of_not_mem (h : separator ∉ s) :
  splitFirst? separator s = none
  := by
  rw [splitFirst?, Text.dropWhile_of_not_mem h]

theorem splitFirst?_append (h : separator ∉ s) (t : List Char) :
  splitFirst? separator (s ++ separator :: t) = some (s, t)
  := by
  rw [splitFirst?, Text.dropWhile_append_separator h, Text.takeWhile_append_separator h]

end Split

namespace Addition

/-- The value spells the addition out: what stands in front of its first equals sign is the name of
the class, and what stands behind the first bar after that is the replacement. -/
def SpelledBy (a : Addition) (value : String) : Prop :=
  '=' ∉ a.className.toList ∧ '|' ∉ a.text.toList ∧
    value.toList = a.className.toList ++
      '=' :: (a.text.toList ++ a.replacement.elim [] fun r => '|' :: r.toList)

/-- A value with an equals sign spells out exactly one addition, and that is the one that is
read. -/
theorem ofString?_eq_some_iff {value : String} {a : Addition} :
  ofString? value = some a ↔ a.SpelledBy value
  := by
  constructor
  · intro h
    rw [ofString?] at h
    rcases Text.not_mem_or_exists_append '=' value.toList with hvalue |
      ⟨name, rest, hname, hvalue⟩
    · rw [splitFirst?_of_not_mem hvalue] at h
      cases h
    · rw [hvalue, splitFirst?_append hname, Option.map_some] at h
      dsimp only at h
      rcases Text.not_mem_or_exists_append '|' rest with hrest | ⟨text, r, htext, rfl⟩
      · rw [splitFirst?_of_not_mem hrest] at h
        obtain rfl := Option.some.inj h
        simp only [SpelledBy, String.toList_ofList, Option.elim_none, List.append_nil]
        exact ⟨hname, hrest, hvalue⟩
      · rw [splitFirst?_append htext] at h
        obtain rfl := Option.some.inj h
        simp only [SpelledBy, String.toList_ofList, Option.elim_some]
        exact ⟨hname, htext, hvalue⟩
  · rintro ⟨hname, htext, hvalue⟩
    rw [ofString?, hvalue, splitFirst?_append hname, Option.map_some]
    obtain ⟨name, text, replacement⟩ := a
    dsimp only at htext ⊢
    cases replacement with
    | none =>
        rw [Option.elim_none, List.append_nil, splitFirst?_of_not_mem htext]
        simp only [String.ofList_toList]
    | some r =>
        rw [Option.elim_some, splitFirst?_append htext]
        simp only [String.ofList_toList]

end Addition

/-! ### Settings -/

/-- An option and its value. -/
inductive Setting where
  /-- The pattern is set. -/
  | pattern (value : String)
  /-- The template is set. -/
  | template (value : String)
  /-- A member is added. -/
  | member (value : String)
  deriving DecidableEq, Repr

namespace Setting

/-- The two arguments of a setting. -/
def arguments : Setting → List String
  | pattern value => ["-E", value]
  | template value => ["-r", value]
  | member value => ["-c", value]

/-- The pattern that is set, if one is. -/
def pattern? : Setting → Option String
  | pattern value => some value
  | _ => none

/-- The template that is set, if one is. -/
def template? : Setting → Option String
  | template value => some value
  | _ => none

/-- The value of the member that is added, if one is. -/
def member? : Setting → Option String
  | member value => some value
  | _ => none

end Setting

namespace Given

/-- What is given after a setting, if its value can be read. -/
def put (given : Given) : Setting → Option Given
  | .pattern value => some { given with pattern := some value }
  | .template value => some { given with template := some value }
  | .member value =>
    (Addition.ofString? value).map fun a => { given with additions := given.additions ++ [a] }

/-- What was given before and is given by some settings then: the last values of the one kind, and
all of the other. -/
structure Follows (before : Given) (settings : List Setting) (after : Given) : Prop where
  pattern : after.pattern = (settings.filterMap Setting.pattern?).getLast?.or before.pattern
  template : after.template = (settings.filterMap Setting.template?).getLast?.or before.template
  additions : ∃ as, after.additions = before.additions ++ as ∧
    List.Forall₂ Addition.SpelledBy as (settings.filterMap Setting.member?)

end Given

/-- Arguments are read setting by setting. -/
theorem readArguments_eq_ok_iff {given given' : Given} {arguments : List String} :
  readArguments given arguments = .ok given' ↔
    ∃ settings : List Setting, arguments = settings.flatMap Setting.arguments ∧
      settings.foldlM Given.put given = some given'
  := by
  constructor
  · intro h
    fun_induction readArguments given arguments with
    | case1 given =>
        obtain rfl := Except.ok.inj h
        exact ⟨[], rfl, rfl⟩
    | case4 given value rest ih =>
        obtain ⟨settings, rfl, hput⟩ := ih h
        exact ⟨.pattern value :: settings, rfl, hput⟩
    | case5 given value rest _ ih =>
        obtain ⟨settings, rfl, hput⟩ := ih h
        exact ⟨.template value :: settings, rfl, hput⟩
    | case6 given value rest a ha _ _ ih =>
        obtain ⟨settings, rfl, hput⟩ := ih h
        refine ⟨.member value :: settings, rfl, ?_⟩
        rw [List.foldlM_cons, Given.put, ha]
        exact hput
    | _ => cases h
  · rintro ⟨settings, rfl, h⟩
    induction settings generalizing given with
    | nil =>
        obtain rfl := Option.some.inj h
        rfl
    | cons x settings ih =>
        rw [List.foldlM_cons] at h
        obtain ⟨next, hnext, h⟩ := Option.bind_eq_some_iff.mp h
        rw [List.flatMap_cons, ← ih h]
        cases x with
        | pattern value =>
            obtain rfl := Option.some.inj hnext
            rfl
        | template value =>
            obtain rfl := Option.some.inj hnext
            rfl
        | member value =>
            obtain ⟨a, ha, rfl⟩ := Option.map_eq_some_iff.mp hnext
            rw [Setting.arguments, List.cons_append, List.cons_append, List.nil_append,
              readArguments, if_neg (by decide), if_neg (by decide), if_pos rfl, ha]

/-- The last of some values is set after the first of them. -/
theorem getLast?_cons_or (value : String) (values : List String) (before : Option String) :
  (value :: values).getLast?.or before = values.getLast?.or (some value)
  := by
  rw [List.getLast?_cons, Option.some_or, Option.or_some]

namespace Given

variable {given given' : Given}

theorem follows_nil_iff :
  given.Follows [] given' ↔ given = given'
  := by
  constructor
  · rintro ⟨hpattern, htemplate, as, hadditions, has⟩
    cases has
    obtain ⟨pattern, template, additions⟩ := given
    obtain ⟨pattern', template', additions'⟩ := given'
    rw [List.append_nil] at hadditions
    exact congr (congrArg₂ Given.mk hpattern.symm htemplate.symm) hadditions.symm
  · rintro rfl
    exact ⟨rfl, rfl, [], (List.append_nil _).symm, .nil⟩

/-- What one setting gives and more of them give then is what they give together. -/
theorem follows_cons_iff {x : Setting} {settings : List Setting} :
  given.Follows (x :: settings) given' ↔
    ∃ next, given.put x = some next ∧ next.Follows settings given'
  := by
  cases x with
  | pattern value =>
      have hlast := getLast?_cons_or value (settings.filterMap Setting.pattern?) given.pattern
      constructor
      · exact fun h => ⟨_, rfl, h.pattern.trans hlast, h.template, h.additions⟩
      · rintro ⟨next, hnext, h⟩
        obtain rfl := Option.some.inj hnext
        exact ⟨h.pattern.trans hlast.symm, h.template, h.additions⟩
  | template value =>
      have hlast := getLast?_cons_or value (settings.filterMap Setting.template?) given.template
      constructor
      · exact fun h => ⟨_, rfl, h.pattern, h.template.trans hlast, h.additions⟩
      · rintro ⟨next, hnext, h⟩
        obtain rfl := Option.some.inj hnext
        exact ⟨h.pattern, h.template.trans hlast.symm, h.additions⟩
  | member value =>
      constructor
      · intro h
        obtain ⟨all, hadditions, hall⟩ := h.additions
        obtain ⟨a, as, ha, has, rfl⟩ := List.forall₂_cons_right_iff.mp hall
        have hnext : given.put (.member value) =
            some { given with additions := given.additions ++ [a] } := by
          rw [put, Addition.ofString?_eq_some_iff.mpr ha, Option.map_some]
        refine ⟨_, hnext, h.pattern, h.template, as, ?_, has⟩
        rw [hadditions, List.append_assoc, List.singleton_append]
      · rintro ⟨next, hnext, h⟩
        obtain ⟨a, ha, rfl⟩ := Option.map_eq_some_iff.mp hnext
        obtain ⟨as, hadditions, has⟩ := h.additions
        refine ⟨h.pattern, h.template, a :: as, ?_, .cons (Addition.ofString?_eq_some_iff.mp ha) has⟩
        rw [hadditions, List.append_assoc, List.singleton_append]

theorem foldlM_put_iff {settings : List Setting} :
  settings.foldlM put given = some given' ↔ given.Follows settings given'
  := by
  induction settings generalizing given with
  | nil =>
      rw [List.foldlM_nil, follows_nil_iff]
      exact Option.some_inj
  | cons x settings ih =>
      rw [List.foldlM_cons, follows_cons_iff]
      refine Option.bind_eq_some_iff.trans ?_
      simp only [ih]

end Given

/-- The options are what the settings give: the last pattern, the last template or else the one for
all that the pattern gives out, and the additions that the members spell out, in order. -/
structure Options.GivenBy (o : Options) (settings : List Setting) : Prop where
  pattern : (settings.filterMap Setting.pattern?).getLast? = some o.pattern
  template : (settings.filterMap Setting.template?).getLast?.getD "%0" = o.template
  additions : List.Forall₂ Addition.SpelledBy o.additions (settings.filterMap Setting.member?)

/-- Arguments are read exactly if they are settings that give some options, and these options are
what is read. -/
theorem Options.ofArguments_eq_ok_iff {arguments : List String} {o : Options} :
  ofArguments arguments = .ok o ↔
    ∃ settings : List Setting, arguments = settings.flatMap Setting.arguments ∧ o.GivenBy settings
  := by
  have hread : ∀ given, readArguments ⟨none, none, []⟩ arguments = .ok given ↔
      ∃ settings : List Setting, arguments = settings.flatMap Setting.arguments ∧
        (Given.mk none none []).Follows settings given := by
    intro given
    rw [readArguments_eq_ok_iff]
    simp only [Given.foldlM_put_iff]
  rw [ofArguments]
  constructor
  · intro h
    split at h
    · cases h
    · next given hgiven =>
      obtain ⟨settings, hsettings, hfollows⟩ := (hread given).mp hgiven
      split at h
      · cases h
      · next pattern hpattern =>
        obtain rfl := Except.ok.inj h
        obtain ⟨as, hadditions, has⟩ := hfollows.additions
        refine ⟨settings, hsettings, ?_, ?_, ?_⟩
        · rw [← hpattern, hfollows.pattern, Option.or_none]
        · dsimp only
          rw [hfollows.template, Option.or_none]
          rfl
        · dsimp only
          rwa [hadditions]
  · rintro ⟨settings, hsettings, h⟩
    have hfollows : (Given.mk none none []).Follows settings
        ⟨some o.pattern, (settings.filterMap Setting.template?).getLast?, o.additions⟩ :=
      ⟨h.pattern.symm.trans (Option.or_none).symm, (Option.or_none).symm, o.additions, rfl,
        h.additions⟩
    rw [(hread _).mpr ⟨settings, hsettings, hfollows⟩]
    dsimp only
    rw [defaultTemplate, h.template]

end Respell.CommandLine
