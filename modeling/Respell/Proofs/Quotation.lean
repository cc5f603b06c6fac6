import Respell.Proofs.RepeatedLeaves
import Respell.Proofs.Rereading
import Respell.Proofs.Template
import Respell.Proofs.Text.Cut
import Respell.Rule

/-!
# Texts that stand for themselves

A text becomes the source of a pattern for this text, and nothing else, by an escape character in
front of each of its characters.  The escape reaches the first byte of a character only, but the
others are no ASCII bytes and so they are no marks.  A text becomes a template for itself by
doubling its escape characters.  The rule made of the two replaces the one text by the other.
-/

namespace Respell

/-! ### Sources of texts -/

namespace Source

/-- The text with an escape character in front of each of its characters. -/
def escapeEach (text : String) : String := .ofList (text.toList.flatMap fun c => ['%', c])

/-- Bytes that are no ASCII bytes need no escape mark. -/
theorem Spells.plainly {s text bs : Bytes} (hbs : ∀ b ∈ bs, 0x80 ≤ b) (h : Spells s text) :
  Spells (bs ++ s) (bs ++ text)
  := by
  induction bs with
  | nil => exact h
  | cons b bs ih =>
      obtain ⟨hb, hbs⟩ := List.forall_mem_cons.mp hbs
      exact .plain hb (ih hbs)

theorem spells_escapeEach (text : String) :
  Spells (Utf8.encode (escapeEach text)) (Utf8.encode text)
  := by
  rw [Utf8.encode, Utf8.encode, escapeEach, String.toList_ofList]
  induction text.toList with
  | nil => exact .nil
  | cons c cs ih =>
      obtain ⟨b, bs, hc, hbs⟩ := Utf8.exists_cons_utf8EncodeChar c
      have hescape : String.utf8EncodeChar '%' = [Mark.escape] := by decide
      simp only [List.flatMap_cons, hescape, hc, List.cons_append, List.nil_append]
      exact .escaped b (ih.plainly hbs)

end Source

/-- The source that spells a text is a pattern of this text, without a warning. -/
theorem Reading.ofSource_of_spells {s text : Bytes} (h : Source.Spells s text) (hne : text ≠ [])
    (lexicon : Lexicon) :
  ofSource s lexicon = ⟨⟨[Node.ofText text], 0⟩, [], lexicon⟩
  := by
  have hbegins : ∀ total, Source.Begins total false s (.nodes [Node.ofText text]) [] := by
    intro total
    have hend : Source.Begins total false (s ++ []) (.nodes [Node.ofText text]) [] :=
      Source.begins_ofText h hne (.inl rfl) Source.unquantified_nil
    rwa [List.append_nil] at hend
  have hread := (Source.Reader.start lexicon).read_of_begins 0 hbegins
  rw [Nat.zero_add, Source.Reader.read] at hread
  rw [ofSource, hread]
  rfl

/-! ### Matches of texts -/

/-- Two texts are the same when the first one leads the second one and is as long. -/
theorem Casing.same_iff_leads {casing : Casing} {s t : Bytes} :
  casing.same s t = true ↔ casing.leads s t = true ∧ s.length = t.length
  := by
  constructor
  · exact fun h => ⟨Casing.leads_of_same h, Casing.length_eq_of_same h⟩
  · rintro ⟨h, hlength⟩
    rwa [Casing.leads, List.take_of_length_le (Nat.le_of_eq hlength.symm)] at h

/-- The node of a text takes a copy of the text in any case. -/
theorem Node.exists_ofText {text : Bytes} (hne : text ≠ []) :
  ∃ content : Leaf, ofText text = .leaf content .once ∧ content.TakesBytes ∧
    ∀ p, (content.once? p).map Path.left =
      if Casing.folded.leads text p.rest then some (p.left - text.length) else none
  := by
  match text, hne with
  | [b], _ =>
      refine ⟨.byte b, rfl, trivial, ?_⟩
      rintro ⟨rest, given, captures⟩
      cases rest with
      | nil => rfl
      | cons c rest =>
          have hleads : Casing.folded.leads [b] (c :: rest) =
              decide (Casing.folded.key b = Casing.folded.key c) := by
            simp [Casing.leads, Casing.same, beq_eq_decide]
          simp only [Leaf.once?, Path.copyByte?, hleads]
          split
          · rfl
          · rfl
  | b :: c :: text, hne =>
      refine ⟨.literal (b :: c :: text) (b :: c :: text), rfl, hne, ?_⟩
      intro p
      rw [Leaf.once?, Path.replaceText?]
      split
      · exact congrArg some List.length_drop
      · rfl

namespace Pattern

variable {text : Bytes} (groups : Nat) (lexicon : Lexicon) (word : Bytes)

/-- The pattern of a text finds a path through the words that begin with the text in any case. -/
theorem map_left_longestPath?_ofText (hne : text ≠ []) :
  (longestPath? ⟨[Node.ofText text], groups⟩ lexicon word).map Path.left =
    if Casing.folded.leads text word then some (word.length - text.length) else none
  := by
  have honce : ∀ o : Option Path, (o.elim .fail Outcome.done).found = o := by
    intro o
    cases o with
    | none => rfl
    | some p => rfl
  obtain ⟨content, hnode, hcontent, hleft⟩ := Node.exists_ofText hne
  rw [longestPath?, Search.longest?, Search.chain, Search.chain, hnode, Search.node,
    Search.leaf_of_takesBytes _ hcontent]
  dsimp only
  rw [Search.downFromMost_once, honce]
  apply hleft

/-- The pattern of a text matches this text in any case, and no other word. -/
theorem isSome_wholeMatch?_ofText (hne : text ≠ []) :
  (wholeMatch? ⟨[Node.ofText text], groups⟩ lexicon word).isSome = Casing.folded.same text word
  := by
  have hleft := map_left_longestPath?_ofText groups lexicon word hne
  rw [Bool.eq_iff_iff, Casing.same_iff_leads, wholeMatch?, longestMatch?]
  cases hpath : longestPath? ⟨[Node.ofText text], groups⟩ lexicon word with
  | none =>
      rw [hpath, Option.map_none, eq_comm, ite_eq_right_iff] at hleft
      constructor
      · intro h
        cases h
      · rintro ⟨hleads, -⟩
        cases hleft hleads
  | some p =>
      rw [hpath, Option.map_some, eq_comm, Option.ite_none_right_eq_some] at hleft
      obtain ⟨hleads, hp⟩ := hleft
      have hle := Casing.length_le_of_leads hleads
      have hlength : (Match.ofPath word p).length = text.length := by
        rw [Match.ofPath, ← Option.some.inj hp]
        exact Nat.sub_sub_self hle
      rw [Option.map_some, Option.isSome_filter, Option.any_some, hlength, decide_eq_true_eq]
      exact ⟨fun h => ⟨hleads, h⟩, fun h => h.2⟩

end Pattern

/-! ### Templates of texts -/

namespace Template

/-- The text with its escape characters doubled. -/
def doubleEscapes (text : String) : String :=
  .ofList (text.toList.flatMap fun c => if c = '%' then ['%', '%'] else [c])

theorem pieces_cons_of_ne {c : Char} (hc : c ≠ '%') (cs : List Char) :
  pieces (c :: cs) = .char c :: pieces cs
  := by
  cases cs with
  | nil => rw [pieces, pieces]
  | cons d cs => rw [pieces, if_neg hc]

/-- Every character stands for itself. -/
theorem pieces_doubleEscapes (text : String) :
  pieces (doubleEscapes text).toList = text.toList.map .char
  := by
  rw [doubleEscapes, String.toList_ofList]
  induction text.toList with
  | nil => rw [List.flatMap_nil, pieces, List.map_nil]
  | cons c cs ih =>
      rw [List.flatMap_cons, List.map_cons]
      split
      · next hc =>
        rw [hc, List.cons_append, List.singleton_append, pieces, if_pos rfl, ih]
        rfl
      · next hc => rw [List.singleton_append, pieces_cons_of_ne hc, ih]

theorem numbers_doubleEscapes (text : String) :
  numbers (doubleEscapes text) = []
  := by
  rw [numbers, references_eq, pieces_doubleEscapes, List.filterMap_map]
  apply List.filterMap_eq_nil_iff.mpr
  intro c _
  rfl

/-- The template of a text is filled in with this text, whatever was captured. -/
theorem fill_doubleEscapes (text : String) (captures : Captures String) :
  fill (doubleEscapes text) captures = ⟨text, []⟩
  := by
  have htext : ∀ cs : List Char,
      String.join ((cs.map Piece.char).map (·.text captures)) = .ofList cs := by
    intro cs
    induction cs with
    | nil => rfl
    | cons c cs ih =>
        rw [List.map_cons, List.map_cons, String.join_cons, ih, Piece.text]
        apply String.toList_injective
        simp
  have hwarnings := warnings_fill (doubleEscapes text) captures
  rw [numbers_doubleEscapes, List.filter_nil, List.map_nil] at hwarnings
  have hfill : (fill (doubleEscapes text) captures).text = text := by
    rw [fill, pieces_doubleEscapes]
    dsimp only
    rw [htext, String.ofList_toList]
  have hparts : ∀ r : Rendering, r = ⟨r.text, r.warnings⟩ := fun _ => rfl
  rw [hparts (fill (doubleEscapes text) captures), hfill, hwarnings]

end Template

/-! ### Rules of texts -/

namespace Rule

/-- The rule made of the source of a text and the template of another one has no warnings.  It
replaces the first text in any case by the second one, and leaves every other word alone. -/
theorem respell?_of_texts {τ : Type} {text : String} (hne : text ≠ "") (replacement : String)
    (tag : τ) :
  let r := ofSource (Utf8.encode (Source.escapeEach text)) (Template.doubleEscapes replacement) tag
  r.warnings = [] ∧ ∀ word, r.respell? word =
    if Casing.folded.same (Utf8.encode text) word then some ⟨replacement, []⟩ else none
  := by
  have hbytes : Utf8.encode text ≠ [] := by
    intro h
    have hchars := Utf8.chars_encode text
    rw [h, Utf8.chars, eq_comm, List.map_eq_nil_iff, String.toList_eq_nil_iff] at hchars
    exact hne hchars
  have hreading := Reading.ofSource_of_spells (Source.spells_escapeEach text) hbytes .empty
  have hwarnings : templateWarnings 0 (Template.doubleEscapes replacement) = [] := by
    rw [templateWarnings, Template.numbers_doubleEscapes]
    rfl
  intro r
  have hr : r = ⟨some ⟨[Node.ofText (Utf8.encode text)], 0⟩, Template.doubleEscapes replacement,
      tag, .empty, []⟩ := by
    simp only [r, ofSource, hreading]
    rw [hwarnings]
    rfl
  rw [hr]
  use rfl
  intro word
  have hwhole := Pattern.isSome_wholeMatch?_ofText 0 .empty word hbytes
  rw [respell?, wholeMatch?, ← hwhole]
  simp only [Option.getD_some, Template.fill_doubleEscapes]
  cases Pattern.wholeMatch? ⟨[Node.ofText (Utf8.encode text)], 0⟩ .empty word with
  | none => rfl
  | some m => rfl

/-- Texts of marks, digits and a character of more than one byte. -/
theorem respell?_of_marks :
  let r := ofSource (Utf8.encode (Source.escapeEach "a%é<2")) (Template.doubleEscapes "50%1") ()
  "a%é<2" ≠ "" ∧ Source.escapeEach "a%é<2" = "%a%%%é%<%2" ∧
    Template.doubleEscapes "50%1" = "50%%1" ∧ r.warnings = [] ∧
    r.respell? (Utf8.encode "A%é<2") = some ⟨"50%1", []⟩ ∧ r.respell? (Utf8.encode "a%é<") = none
  := by
  intro r
  have hne : "a%é<2" ≠ "" := by decide
  obtain ⟨hwarnings, hrespell⟩ := respell?_of_texts hne "50%1" ()
  refine ⟨hne, by decide, by decide, hwarnings, ?_, ?_⟩
  · exact (hrespell _).trans (if_pos (by decide))
  · exact (hrespell _).trans (if_neg (by decide))

end Rule

end Respell
