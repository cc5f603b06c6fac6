import Respell.Proofs.Source.Leaves
import Respell.Proofs.Source.Printed

/-!
# Items are read back

Each piece of a draft is read back as one item, if no quantifier stands behind it.  A literal
is an exception, since it has nothing to end it: a byte behind it belongs to the same run of
text, where the quantifier of the byte tells the two apart, and any other piece has to begin
with a byte that ends the run.
-/

namespace Respell

namespace Source

open Draft

/-! ### Runs of text -/

/-- A run of text ends in front of these bytes. -/
def Halts (inGroup : Bool) (s : Bytes) : Prop := s = [] ∨ endsRun inGroup s = true

/-- A text that is spelled out is read back up to where the run of text ends. -/
theorem moreText_of_spells (total : Nat) {inGroup : Bool} {s text : Bytes} (h : Spells s text)
    {rest : Bytes} (hrest : Halts inGroup rest) :
  moreText total inGroup (s ++ rest) = ⟨text, rest, []⟩
  := by
  induction text generalizing s with
  | nil =>
      cases h
      rw [List.nil_append]
      rcases hrest with rfl | hrest
      · rw [moreText]
      · cases rest with
        | nil => rw [moreText]
        | cons b rest => rw [moreText, if_pos hrest]
  | cons b text ih =>
      obtain ⟨c, t, s', ht, hc, hbyte, h'⟩ := h.exists_textByte total rest
      have hstarts : startsQuantifier (c :: t) = false := by
        rw [startsQuantifier, (hc.unquantified t).1, Option.isSome_none]
      have hends : ¬ endsRun inGroup (c :: t) = true := by
        simp [endsRun, hc.beginsItem, hc.endsBranch, hstarts]
      have hcount : malformedCount total (c :: t) = [] := by
        simp [malformedCount, startsMalformedCount, hc.ne_marks]
      rw [ht, moreText, if_neg hends, hbyte, hcount]
      dsimp only
      rw [ih h']
      rfl

/-- A run of text begins where a text is spelled out. -/
theorem exists_text (total : Nat) {inGroup : Bool} {s text : Bytes} (h : Spells s text)
    (hne : text ≠ []) {rest : Bytes} (hrest : Halts inGroup rest) :
  ∃ c t, s ++ rest = c :: t ∧ Plain c ∧ Source.text total inGroup c t = ⟨text, rest, []⟩
  := by
  obtain ⟨b, text, rfl⟩ := List.exists_cons_of_ne_nil hne
  obtain ⟨c, t, s', ht, hc, hbyte, h'⟩ := h.exists_textByte total rest
  have hstray : strayQuantifier total (c :: t) = [] := by
    rw [strayQuantifier, startsQuantifier, (hc.unquantified t).1, Option.isSome_none,
      if_neg Bool.false_ne_true]
  refine ⟨c, t, ht, hc, ?_⟩
  rw [Source.text, hstray, hbyte]
  dsimp only
  rw [moreText_of_spells total h' hrest]
  rfl

/-! ### Items -/

/-- Some bytes begin with an item, about which there are no warnings, and `rest` is what
stands behind it. -/
def Begins (total : Nat) (inGroup : Bool) (s : Bytes) (i : Item) (rest : Bytes) : Prop :=
  ∃ c t, s = c :: t ∧ item total inGroup c t = ⟨i, rest, []⟩

section Begins

variable {total : Nat} {inGroup : Bool} {rest : Bytes}

/-- A run of text begins with an item if its nodes are found without warnings. -/
theorem begins_text {s text : Bytes} (hspells : Spells s text) (hne : text ≠ []) {s' : Bytes}
    (hs' : Halts inGroup s') {ns : List Node}
    (hns : ∀ c t, Source.text total inGroup c t = ⟨text, s', []⟩ →
      textNodes total inGroup c t = ⟨ns, rest, []⟩) :
  Begins total inGroup (s ++ s') (.nodes ns) rest
  := by
  obtain ⟨c, t, ht, hc, htext⟩ := exists_text total hspells hne hs'
  use c, t, ht
  have hends : ¬ (inGroup && Mark.endsBranch c) = true := by simp [hc.endsBranch]
  rw [item, if_neg hends, if_neg (hc.ne_marks _ (by decide)), if_neg (hc.ne_marks _ (by decide)),
    if_neg (hc.ne_marks _ (by decide)), if_neg (hc.ne_marks _ (by decide)), hns c t htext]

/-- A quantifier ends a run of text. -/
theorem halts_quantifier {q : Quantifier} (hq : q ≠ .omitted) (h : q.Normal) (rest : Bytes) :
  Halts inGroup (q.print ++ rest)
  := .inr (Bool.or_eq_true_iff.mpr (.inr (startsQuantifier_print hq h rest)))

/-- A byte with a quantifier is read back. -/
theorem begins_byte (b : UInt8) {q : Quantifier} (hq : q ≠ .omitted) (h : q.Normal)
    (hrest : Unquantified rest) :
  Begins total inGroup (printByte b ++ (q.print ++ rest)) (.nodes [.leaf (.byte b) q.reps]) rest
  := by
  have hprint : printByte b = printText [b] := by
    rw [printText, List.flatMap_singleton]
  rw [hprint]
  apply begins_text (spells_printText [b]) (List.cons_ne_nil b []) (halts_quantifier hq h rest)
  intro c t htext
  rw [textNodes, htext]
  dsimp only
  rw [quantifier_print h hrest]
  rfl

theorem ofText_of_le {text : Bytes} (h : 2 ≤ text.length) :
  Node.ofText text = .leaf (.literal text text) .once
  := by
  match text with
  | _ :: _ :: _ => rfl

/-- The quantifier behind a run of text repeats the last byte of the run. -/
theorem begins_literal_byte {text : Bytes} (ht : 2 ≤ text.length) (b : UInt8) {q : Quantifier}
    (hq : q ≠ .omitted) (h : q.Normal) (hrest : Unquantified rest) :
  Begins total inGroup (printText text ++ (printByte b ++ (q.print ++ rest)))
    (.nodes [.leaf (.literal text text) .once, .leaf (.byte b) q.reps]) rest
  := by
  have hprint : printText text ++ (printByte b ++ (q.print ++ rest)) =
      printText (text ++ [b]) ++ (q.print ++ rest) := by
    simp only [printText, List.flatMap_append, List.flatMap_singleton, List.append_assoc]
  have hlength : (decide (1 < (text ++ [b]).length) &&
      startsQuantifier (q.print ++ rest)) = true := by
    rw [startsQuantifier_print hq h, Bool.and_true, decide_eq_true_eq, List.length_append]
    apply Nat.lt_add_right 1 ht
  have hlast : (text ++ [b]).drop ((text ++ [b]).length - 1) = [b] := by
    rw [List.length_append, List.length_singleton, Nat.add_sub_cancel, List.drop_left]
  rw [hprint]
  apply begins_text (spells_printText (text ++ [b]))
    (List.append_ne_nil_of_right_ne_nil text (List.cons_ne_nil b [])) (halts_quantifier hq h rest)
  intro c t htext
  rw [textNodes, htext]
  dsimp only
  rw [if_pos hlength, List.dropLast_concat, hlast, quantifier_print h hrest, ofText_of_le ht]
  rfl

/-- A text that is spelled out is one node if the run of text ends behind it and is not
repeated. -/
theorem begins_ofText {s text : Bytes} (hspells : Spells s text) (hne : text ≠ [])
    (hhalts : Halts inGroup rest) (hrest : Unquantified rest) :
  Begins total inGroup (s ++ rest) (.nodes [Node.ofText text]) rest
  := by
  apply begins_text hspells hne hhalts
  intro c t htext
  rw [textNodes, htext]
  dsimp only
  rw [startsQuantifier, hrest.1, Option.isSome_none, Bool.and_false,
    if_neg Bool.false_ne_true, quantifier_of_unquantified hrest, ofText_withReps_once]
  rfl

/-- A literal is read back if the run of text ends behind it and is not repeated. -/
theorem begins_literal {text : Bytes} (ht : 2 ≤ text.length) (hhalts : Halts inGroup rest)
    (hrest : Unquantified rest) :
  Begins total inGroup (printText text ++ rest) (.nodes [.leaf (.literal text text) .once]) rest
  := by
  have hne : text ≠ [] := by
    rintro rfl
    cases ht
  rw [← ofText_of_le ht]
  apply begins_ofText (spells_printText text) hne hhalts hrest

/-- The item that is read back for an atom. -/
def atomItem (content : Atom) (reps : Reps) : Item :=
  match content with
  | .byte b => .nodes [.leaf (.byte b) reps]
  | .wildcard => .nodes [.leaf (.set .full) reps]
  | .set negated first more => .nodes [.leaf (.set (.ofItems negated (first :: more))) reps]
  | .reference name declared =>
    .reference ⟨name, (declared.getD []).map Declaration.member⟩ reps

/-- The item that is read back for a piece. -/
def pieceItem : Piece → Item
  | .literal text => .nodes [.leaf (.literal text text) .once]
  | .atom content q => atomItem content q.reps
  | .groupOpen => .groupOpen
  | .branchEnd replacement => .branchEnd replacement
  | .groupClose replacement q => .groupClose replacement q.reps

/-- An atom with its quantifier is read back. -/
theorem begins_atom {content : Atom} {q : Quantifier} (h : content.Normal q) (hq : q.Normal)
    (hrest : Unquantified rest) :
  Begins total inGroup (content.print ++ (q.print ++ rest)) (atomItem content q.reps) rest
  := by
  have hends : ∀ {b}, Mark.endsBranch b = false → ¬ (inGroup && Mark.endsBranch b) = true := by
    intro b hb
    simp [hb]
  have hquantifier := quantifier_print hq hrest total
  cases content with
  | byte b => exact begins_byte b h hq hrest
  | wildcard =>
      use Mark.wildcard, q.print ++ rest, rfl
      rw [item, if_neg (hends rfl), if_neg (by decide), if_neg (by decide), if_neg (by decide),
        if_pos rfl, hquantifier]
      rfl
  | set negated first more =>
      rw [Atom.print, List.cons_append, List.append_assoc, List.append_assoc,
        List.singleton_append]
      refine ⟨Mark.setOpen, _, rfl, ?_⟩
      rw [item, if_neg (hends rfl), if_neg (by decide), if_neg (by decide), if_pos rfl]
      dsimp only
      rw [set_printed]
      dsimp only
      rw [hquantifier]
      rfl
  | reference name declared =>
      rw [Atom.print, List.cons_append, List.append_assoc, List.append_assoc,
        List.singleton_append]
      refine ⟨Mark.classOpen, _, rfl, ?_⟩
      rw [item, if_neg (hends rfl), if_neg (by decide), if_pos rfl]
      dsimp only
      rw [reference_printed h]
      dsimp only
      rw [hquantifier]
      rfl

/-- The end of a branch begins with a byte that ends the branch. -/
theorem exists_cons_end (replacement : Option Bytes) {b : UInt8}
    (hb : Mark.endsBranchReplacement b = true) (s : Bytes) :
  ∃ c t, printReplacement replacement ++ b :: s = c :: t ∧ Mark.endsBranch c = true
  := by
  obtain ⟨c, t, ht, hc⟩ := exists_cons_printReplacement replacement b s
  use c, t, ht
  rcases hc with rfl | rfl
  · rfl
  · exact Bool.or_eq_true_iff.mpr (.inl hb)

/-- Within a group the end of a branch is read back, up to a comma or the end of the group. -/
theorem begins_end (replacement : Option Bytes) {b : UInt8}
    (hb : Mark.endsBranchReplacement b = true) (s : Bytes) {i : Item}
    (hi : ∀ c t, Source.replacement total Mark.endsBranchReplacement (c :: t) =
      ⟨replacement, b :: s, []⟩ → branchEnd total c t = ⟨i, rest, []⟩) :
  Begins total true (printReplacement replacement ++ b :: s) i rest
  := by
  have hreplace : b ≠ Mark.replace := by
    rintro rfl
    cases hb
  have hreplaced := replacement_printReplacement Plain.endsBranchReplacement total replacement
    hb hreplace s
  obtain ⟨c, t, ht, hc⟩ := exists_cons_end replacement hb s
  rw [ht] at hreplaced
  use c, t, ht
  rw [item, hc, Bool.and_true, if_pos rfl, hi c t hreplaced]

/-- The piece ends a branch. -/
def endsBranch : Piece → Bool
  | .branchEnd _ => true
  | .groupClose _ _ => true
  | _ => false

/-- A piece other than a literal is read back, within a group if it ends a branch. -/
theorem begins_piece {p : Piece} (h : p.Normal) (hliteral : p.isLiteral = false)
    (hgroup : endsBranch p = true → inGroup = true) (hrest : Unquantified rest) :
  Begins total inGroup (p.print ++ rest) (pieceItem p) rest
  := by
  cases p with
  | literal text => cases hliteral
  | atom content q =>
      rw [Piece.print, List.append_assoc]
      exact begins_atom h.1 h.2 hrest
  | groupOpen =>
      have hends : ¬ (inGroup && Mark.endsBranch Mark.groupOpen) = true := by
        rw [Bool.and_eq_true]
        exact fun h => Bool.false_ne_true h.2
      use Mark.groupOpen, rest, rfl
      rw [item, if_neg hends, if_pos rfl]
      rfl
  | branchEnd replacement =>
      obtain rfl := hgroup rfl
      rw [Piece.print, List.append_assoc, List.singleton_append]
      apply begins_end replacement rfl
      intro c t hreplaced
      rw [branchEnd, hreplaced]
      rfl
  | groupClose replacement q =>
      obtain rfl := hgroup rfl
      rw [Piece.print, List.append_assoc, List.cons_append]
      apply begins_end replacement rfl
      intro c t hreplaced
      rw [branchEnd, hreplaced]
      dsimp only
      rw [if_neg (by decide), quantifier_print h hrest]
      rfl

end Begins

/-! ### The first byte of a piece -/

/-- The piece is part of a text. -/
def isText : Piece → Bool
  | .literal _ => true
  | .atom (.byte _) _ => true
  | _ => false

/-- A piece that is no part of a text begins with a mark, and one that ends a branch with a
mark for that. -/
theorem exists_cons_print {p : Piece} (h : p.Normal) (rest : Bytes) :
  ∃ c s, p.print ++ rest = c :: s ∧
    (isText p = true ∧ Plain c ∨ Mark.beginsItem c = true ∨
      endsBranch p = true ∧ Mark.endsBranch c = true)
  := by
  cases p with
  | literal text =>
      obtain ⟨b, text, rfl⟩ := List.exists_cons_of_length_pos (Nat.zero_lt_of_lt h)
      obtain ⟨c, s, hs, hc, -⟩ := exists_textByte 0 b (printText text ++ rest)
      refine ⟨c, s, ?_, .inl ⟨rfl, hc⟩⟩
      rw [Piece.print, printText, List.flatMap_cons, List.append_assoc, ← printText, hs]
  | atom content q =>
      cases content with
      | byte b =>
          obtain ⟨c, s, hs, hc, -⟩ := exists_textByte 0 b (q.print ++ rest)
          refine ⟨c, s, ?_, .inl ⟨rfl, hc⟩⟩
          rw [Piece.print, Atom.print, List.append_assoc, hs]
      | wildcard => exact ⟨_, _, rfl, .inr (.inl rfl)⟩
      | set negated first more => exact ⟨_, _, rfl, .inr (.inl rfl)⟩
      | reference name declared => exact ⟨_, _, rfl, .inr (.inl rfl)⟩
  | groupOpen => exact ⟨_, _, rfl, .inr (.inl rfl)⟩
  | branchEnd replacement =>
      obtain ⟨c, s, hs, hc⟩ := exists_cons_end replacement (b := Mark.comma) rfl rest
      refine ⟨c, s, ?_, .inr (.inr ⟨rfl, hc⟩)⟩
      rw [Piece.print, List.append_assoc, List.singleton_append, hs]
  | groupClose replacement q =>
      obtain ⟨c, s, hs, hc⟩ :=
        exists_cons_end replacement (b := Mark.groupClose) rfl (q.print ++ rest)
      refine ⟨c, s, ?_, .inr (.inr ⟨rfl, hc⟩)⟩
      rw [Piece.print, List.append_assoc, List.cons_append, hs]

/-- No piece begins with a quantifier. -/
theorem unquantified_print {p : Piece} (h : p.Normal) (rest : Bytes) :
  Unquantified (p.print ++ rest)
  := by
  obtain ⟨c, s, hs, hc⟩ := exists_cons_print h rest
  rw [hs]
  rcases hc with ⟨-, hc⟩ | hc | ⟨-, hc⟩
  · apply hc.unquantified
  · simp only [Mark.beginsItem, Bool.or_eq_true, decide_eq_true_eq] at hc
    rcases hc with ((rfl | rfl) | rfl) | rfl
    all_goals exact unquantified_cons (by decide +kernel) s
  · simp only [Mark.endsBranch, Bool.or_eq_true, decide_eq_true_eq] at hc
    rcases hc with (rfl | rfl) | rfl
    all_goals exact unquantified_cons (by decide +kernel) s

theorem unquantified_printPieces {ps : List Piece} (h : NormalPieces ps) :
  Unquantified (printPieces ps)
  := by
  cases ps with
  | nil => apply unquantified_nil
  | cons p ps =>
      rw [printPieces_cons]
      apply unquantified_print (h.1 p List.mem_cons_self)

/-- A piece that is no part of a text ends a run of text, within a group if it ends a
branch. -/
theorem halts_print {inGroup : Bool} {p : Piece} (h : p.Normal) (htext : isText p = false)
    (hgroup : endsBranch p = true → inGroup = true) (rest : Bytes) :
  Halts inGroup (p.print ++ rest)
  := by
  obtain ⟨c, s, hs, hc⟩ := exists_cons_print h rest
  rw [hs]
  rcases hc with ⟨hp, -⟩ | hc | ⟨hp, hc⟩
  · rw [htext] at hp
    cases hp
  · right
    simp [endsRun, hc]
  · right
    simp [endsRun, hc, hgroup hp]

end Source

end Respell
