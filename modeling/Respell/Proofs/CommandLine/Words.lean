import Respell.CommandLine.Report
import Respell.Proofs.CommandLine.Options
import Respell.Proofs.Template

/-!
# One word after the other

The program prints what becomes of each word of its input, up to the first piece of the input that
is not a text.  What it prints for a word depends on the rule that the options describe and on that
word only.  So for two inputs one behind the other it prints what it prints for the one, and then
what it prints for the other.
-/

namespace Respell.CommandLine

open Utf8

/-! ### The rule -/

/-- The change of a class that an addition asks for. -/
def Addition.change (a : Addition) : Bytes × NamedClass.Change :=
  (encode a.className, .offer (encode a.text) (a.replacement.map encode))

/-- The rule of the pattern and the template, after all additions to its classes in order. -/
def Options.rule (o : Options) : Rule Unit :=
  (Rule.ofSource (encode o.pattern) o.template ()).after (o.additions.map Addition.change)

theorem fst_extend (rule : Rule Unit) (additions : List Addition) :
  (extend rule additions).1 = rule.after (additions.map Addition.change)
  := by
  induction additions generalizing rule with
  | nil => rfl
  | cons a additions ih =>
      have hfirst : (rule.extendClass (encode a.className) a.member).2 =
          rule.change a.change.1 a.change.2 := rfl
      rw [extend, List.map_cons, Rule.after, List.foldl_cons, ← Rule.after, ← hfirst, ← ih]
      dsimp only
      split
      · rfl
      · rfl

theorem fst_ruleOf (o : Options) :
  (ruleOf o).1 = o.rule
  := fst_extend _ o.additions

/-! ### Words -/

/-- The words of an input: the pieces in front of the first one that is not a text, without the
carriage returns at their ends. -/
def words (input : Bytes) : List Bytes :=
  ((Text.pieces input).takeWhile fun piece => decide (IsText piece)).map Text.trimEnd

theorem words_eq_takeWhile (input : Bytes) :
  words input = (Text.lines input).takeWhile fun line => decide (IsText line)
  := by
  rw [words, Text.lines_eq_map_pieces, List.takeWhile_map]
  simp only [Function.comp_def, Text.isText_trimEnd_iff]

/-- The words behind a text that ends with a newline follow the words of this text. -/
theorem words_append {s : Bytes} (h : IsText s) (hend : s = [] ∨ s.getLast? = some Text.newline)
    (t : Bytes) :
  words (s ++ t) = words s ++ words t
  := by
  have hpieces : ∀ p ∈ Text.pieces s, decide (IsText p) = true :=
    fun p hp => decide_eq_true (Text.isText_of_mem_pieces h p hp)
  have hall := List.takeWhile_eq_self_iff.mpr hpieces
  rw [words, words, words, Text.pieces_append hend, List.takeWhile_append_of_pos hpieces, hall,
    List.map_append]

/-! ### Reports -/

section Report

variable (rule : Rule Unit)

theorem decode?_of_not_isText {s : Bytes} (h : ¬ IsText s) :
  decode? s = none
  := by
  rw [isText_iff_isSome, Bool.not_eq_true, Option.isSome_eq_false_iff] at h
  exact Option.isNone_iff_eq_none.mp h

/-- The lines in front of the first one that is not a text are respelled one by one. -/
theorem output_reportLines (lines : List Bytes) :
  (reportLines rule lines).output =
    ((lines.takeWhile fun line => decide (IsText line)).filterMap rule.respell?).map Rendering.text
  := by
  induction lines with
  | nil => rfl
  | cons line lines ih =>
      by_cases h : IsText line
      · obtain ⟨word, hword⟩ := Option.isSome_iff_exists.mp (isText_iff_isSome.mp h)
        rw [List.takeWhile_cons, if_pos (decide_eq_true h), List.filterMap_cons, reportLines, hword]
        dsimp only
        cases rule.respell? line with
        | none => exact ih
        | some rendering => exact congrArg (rendering.text :: ·) ih
      · rw [List.takeWhile_cons, if_neg (by simpa using h), reportLines, decode?_of_not_isText h]
        rfl

/-- The program fails where a line is not a text, whatever was respelled before. -/
theorem status_reportLines (lines : List Bytes) :
  (reportLines rule lines).status =
    if ∃ line ∈ lines, ¬ IsText line then .failed
    else if ∃ line ∈ lines, (rule.respell? line).isSome = true then .matched
    else .unmatched
  := by
  induction lines with
  | nil => rfl
  | cons line lines ih =>
      by_cases h : IsText line
      · obtain ⟨word, hword⟩ := Option.isSome_iff_exists.mp (isText_iff_isSome.mp h)
        simp only [List.exists_mem_cons_iff, not_true_eq_false, h, false_or]
        rw [reportLines, hword]
        dsimp only
        cases rule.respell? line with
        | none => simpa using ih
        | some rendering =>
            dsimp only
            by_cases hlines : ∃ line ∈ lines, ¬ IsText line
            · rw [ih, if_pos hlines, if_pos hlines, if_pos rfl]
            · have hmore : (reportLines rule lines).status ≠ .failed := by
                rw [ih, if_neg hlines]
                split
                · nofun
                · nofun
              rw [if_neg hlines, if_neg hmore, if_pos (.inl rfl)]
      · have hfailed : ∃ line' ∈ line :: lines, ¬ IsText line' := ⟨line, List.mem_cons_self, h⟩
        rw [if_pos hfailed, reportLines, decode?_of_not_isText h]

end Report

/-- What the program prints are the texts that the words of the input become, each with a newline
behind it. -/
theorem standardOutput_report {arguments : List String} {o : Options}
    (h : Options.ofArguments arguments = .ok o) (input : Bytes) :
  (report arguments input).standardOutput =
    .join (((words input).filterMap o.rule.respell?).map (·.text ++ "\n"))
  := by
  rw [report, h, Report.standardOutput]
  dsimp only
  rw [fst_ruleOf, output_reportLines, ← words_eq_takeWhile, List.map_map]
  rfl

theorem code_report {arguments : List String} {o : Options}
    (h : Options.ofArguments arguments = .ok o) (input : Bytes) :
  (report arguments input).status.code =
    if ∃ piece ∈ Text.pieces input, ¬ IsText piece then 2
    else if ∃ word ∈ words input, (o.rule.respell? word).isSome = true then 0
    else 1
  := by
  have hlines : (∃ line ∈ Text.lines input, ¬ IsText line) ↔
      ∃ piece ∈ Text.pieces input, ¬ IsText piece := by
    rw [Text.lines_eq_map_pieces]
    simp only [List.mem_map, exists_exists_and_eq_and, Text.isText_trimEnd_iff]
  rw [report, h]
  dsimp only
  rw [fst_ruleOf, status_reportLines]
  simp only [hlines]
  split
  · rfl
  · next hall =>
    have hwords : words input = Text.lines input := by
      rw [words_eq_takeWhile]
      apply List.takeWhile_eq_self_iff.mpr
      intro line hline
      apply decide_eq_true
      by_contra hnot
      exact hall (hlines.mp ⟨line, hline, hnot⟩)
    rw [hwords]
    split
    · rfl
    · rfl

/-- Arguments that are read are settings, and the options are what these give: their last pattern,
their last template or else the default one, and the additions that their members spell out.  With
all other settings that give the same options the program does the same.  It prints the texts that
the words of the input become by the rule of these options, each with a newline behind it.  It fails
if there is a piece that is not a text, and otherwise tells whether a word was respelled.  For a text
that is empty or ends with a newline and something behind it, the program prints what it prints for
the one, and then what it prints for the other. -/
theorem report_of_arguments {arguments : List String} {o : Options}
    (h : Options.ofArguments arguments = .ok o) :
  (∃ settings : List Setting, arguments = settings.flatMap Setting.arguments ∧
    o.GivenBy settings) ∧
  (∀ settings : List Setting, o.GivenBy settings →
    report (settings.flatMap Setting.arguments) = report arguments) ∧
  (∀ input,
    (report arguments input).standardOutput =
      .join (((words input).filterMap o.rule.respell?).map (·.text ++ "\n")) ∧
    (report arguments input).status.code =
      if ∃ piece ∈ Text.pieces input, ¬ IsText piece then 2
      else if ∃ word ∈ words input, (o.rule.respell? word).isSome = true then 0
      else 1) ∧
  (∀ s t, IsText s → s = [] ∨ s.getLast? = some Text.newline →
    (report arguments (s ++ t)).standardOutput =
      (report arguments s).standardOutput ++ (report arguments t).standardOutput)
  := by
  refine ⟨Options.ofArguments_eq_ok_iff.mp h, ?_, ?_, ?_⟩
  · intro settings hsettings
    have hread := Options.ofArguments_eq_ok_iff.mpr ⟨settings, rfl, hsettings⟩
    funext input
    rw [report, report, hread, h]
  · exact fun input => ⟨standardOutput_report h input, code_report h input⟩
  · intro s t hs hend
    rw [standardOutput_report h, standardOutput_report h, standardOutput_report h,
      words_append hs hend, List.filterMap_append, List.map_append, String.join_append]

/-- Options that are given twice, marks in values, carriage returns, and a piece that is no text
behind two words that are respelled and one that is not. -/
theorem report_of_repeated_options :
  let arguments := ["-c", "v=ab|c=|d", "-E", "q", "-E", "<v>+", "-r", "%%", "-r", "[%0]"]
  let o : Options := ⟨"<v>+", "[%0]", [⟨"v", "ab", some "c=|d"⟩]⟩
  let s := encode "ab\r\r\nxy\n"
  let t := encode "ABab\n" ++ [0xFF, 0x0A, 0x61, 0x62]
  Options.ofArguments arguments = .ok o ∧ IsText s ∧ s.getLast? = some Text.newline ∧
    (report arguments s).standardOutput = "[c=|d]\n" ∧
    (report arguments (s ++ t)).standardOutput = "[c=|d]\n[c=|dc=|d]\n" ∧
    (report arguments (s ++ t)).status.code = 2
  := by
  intro arguments o s t
  have h : Options.ofArguments arguments = .ok o := by decide +kernel
  have hs : IsText s := ⟨_, rfl⟩
  have hend : s.getLast? = some Text.newline := by decide +kernel
  obtain ⟨-, -, hinput, happend⟩ := report_of_arguments h
  have hfirst : (report arguments s).standardOutput = "[c=|d]\n" := by
    rw [(hinput s).1]
    decide +kernel
  have hsecond : (report arguments t).standardOutput = "[c=|dc=|d]\n" := by
    rw [(hinput t).1]
    decide +kernel
  refine ⟨h, hs, hend, hfirst, ?_, ?_⟩
  · rw [happend s t hs (.inr hend), hfirst, hsecond]
    rfl
  · rw [(hinput (s ++ t)).2]
    decide +kernel

end Respell.CommandLine
