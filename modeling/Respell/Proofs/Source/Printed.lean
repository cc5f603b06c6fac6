import Respell.Proofs.Draft
import Respell.Proofs.Source.Count

/-!
# What is printed is read back

Each scan of a pattern reads back what was printed for it, and stops where it ends.  The bytes
of a printed text begin with an escape mark or are not ASCII, hence none of them is a mark for
the scan that comes upon it.
-/

namespace Respell

namespace Source

open Draft

/-! ### Numbers -/

/-- A digit is a byte, and that byte is a digit of the same value. -/
theorem exists_byte_of_isDigit {c : Char} (h : c.isDigit = true) :
  ∃ b, String.utf8EncodeChar c = [b] ∧ Byte.isDigit b = true ∧ b.toNat = c.toNat
  := by
  rw [Char.isDigit, Bool.and_eq_true, decide_eq_true_eq, decide_eq_true_eq] at h
  have hlow : 48 ≤ c.val.toNat := h.1
  have hhigh : c.val.toNat ≤ 57 := h.2
  have hlt : c.val.toNat < 256 := by omega
  have hascii : c.val.toNat ≤ 127 := by omega
  have hnat : (UInt8.ofNat c.val.toNat).toNat = c.val.toNat := UInt8.toNat_ofNat_of_lt hlt
  refine ⟨UInt8.ofNat c.val.toNat, if_pos hascii, ?_, hnat⟩
  rw [Byte.isDigit, Bool.and_eq_true, decide_eq_true_eq, decide_eq_true_eq, UInt8.le_iff_toNat_le,
    UInt8.le_iff_toNat_le, hnat]
  exact ⟨hlow, hhigh⟩

theorem printNumber_eq (n : Nat) :
  printNumber n = (Nat.toDigits 10 n).flatMap String.utf8EncodeChar
  := by
  rw [printNumber, Utf8.encode, Nat.toString_eq_repr, Nat.repr_eq_ofList_toDigits,
    String.toList_ofList]

theorem isDigit_of_mem_printNumber {n : Nat} :
  ∀ b ∈ printNumber n, Byte.isDigit b = true
  := by
  intro b hb
  rw [printNumber_eq] at hb
  obtain ⟨c, hc, hb⟩ := List.mem_flatMap.mp hb
  obtain ⟨d, hd, hdigit, -⟩ :=
    exists_byte_of_isDigit (Nat.isDigit_of_mem_toDigits (by decide) (by decide) hc)
  rw [hd, List.mem_singleton] at hb
  rwa [hb]

theorem printNumber_ne_nil (n : Nat) :
  printNumber n ≠ []
  := by
  obtain ⟨c, hc⟩ := List.exists_mem_of_ne_nil _ (Nat.toDigits_ne_nil (n := n) (b := 10))
  obtain ⟨d, hd, -⟩ :=
    exists_byte_of_isDigit (Nat.isDigit_of_mem_toDigits (by decide) (by decide) hc)
  rw [printNumber_eq]
  apply List.ne_nil_of_mem (a := d)
  apply List.mem_flatMap_of_mem hc
  rw [hd]
  apply List.mem_singleton_self

/-- The digits of a number give its value. -/
theorem decimal_printNumber (n : Nat) :
  decimal (printNumber n) = n
  := by
  have hfold : ∀ cs : List Char, (∀ c ∈ cs, c.isDigit = true) → ∀ m,
      (cs.flatMap String.utf8EncodeChar).foldl (fun n d => 10 * n + (d.toNat - 0x30)) m =
        Nat.ofDigitChars 10 cs m := by
    intro cs hcs
    induction cs with
    | nil => exact fun m => rfl
    | cons c cs ih =>
        obtain ⟨hc, hcs⟩ := List.forall_mem_cons.mp hcs
        obtain ⟨b, hb, -, hvalue⟩ := exists_byte_of_isDigit hc
        intro m
        rw [List.flatMap_cons, hb, Nat.ofDigitChars_cons, ← ih hcs, ← hvalue]
        rfl
  rw [decimal, printNumber_eq, hfold, Nat.ofDigitChars_toDigits (by decide) (by decide)]
  intro c hc
  apply Nat.isDigit_of_mem_toDigits (by decide) (by decide) hc

/-- What is printed for a number below the limit is a numeral of its value. -/
theorem numeral_printNumber {n : Nat} (hn : n < countLimit) :
  Numeral (printNumber n) ∧ valueOf (printNumber n) = n
  := by
  have hvalue : valueOf (printNumber n) = n := by
    rw [← decimal_eq_valueOf, decimal_printNumber]
  have hlt : valueOf (printNumber n) < 2 ^ 64 := hvalue.symm ▸ hn
  exact ⟨⟨printNumber_ne_nil n, isDigit_of_mem_printNumber, hlt⟩, hvalue⟩

/-! ### Quantifiers -/

/-- A quantifier is read back, whatever stands behind it. -/
theorem quantifier?_print {q : Quantifier} (hq : q ≠ .omitted) (h : q.Normal) (rest : Bytes) :
  quantifier? (q.print ++ rest) = some (q.reps, rest)
  := by
  cases q with
  | omitted => contradiction
  | optional => rfl
  | anyNumber => rfl
  | oneOrMore => rfl
  | exactly n =>
      obtain ⟨hnumeral, hvalue⟩ := numeral_printNumber h
      rw [Quantifier.print, List.cons_append, List.append_assoc, List.singleton_append,
        quantifier?_countOpen]
      apply count?_of_counts (.exactly hnumeral hvalue.symm _)
      rw [hvalue]
      exact congrArg some (Nat.max_self n)
  | atLeast n =>
      obtain ⟨hnumeral, hvalue⟩ := numeral_printNumber h
      rw [Quantifier.print, List.cons_append, List.append_assoc, List.cons_append,
        List.singleton_append, quantifier?_countOpen]
      apply count?_of_counts (.atLeast hnumeral hvalue.symm rfl)
  | between least most =>
      obtain ⟨hleast, hleastValue⟩ := numeral_printNumber h.1
      obtain ⟨hmost, hmostValue⟩ := numeral_printNumber h.2
      rw [Quantifier.print, List.cons_append, List.append_assoc, List.cons_append,
        List.append_assoc, List.singleton_append, quantifier?_countOpen]
      apply count?_of_counts (.between hleast hmost hleastValue.symm _)
      rw [hleastValue, hmostValue]
      rfl

theorem startsQuantifier_print {q : Quantifier} (hq : q ≠ .omitted) (h : q.Normal)
    (rest : Bytes) :
  startsQuantifier (q.print ++ rest) = true
  := by
  rw [startsQuantifier, quantifier?_print hq h]
  rfl

/-- No quantifier stands in front, nor a brace that might begin one. -/
def Unquantified (s : Bytes) : Prop := quantifier? s = none ∧ s.head? ≠ some Mark.countOpen

theorem unquantified_nil :
  Unquantified []
  := ⟨rfl, nofun⟩

theorem unquantified_cons {b : UInt8}
    (h : ∀ mark ∈ [Mark.optional, Mark.star, Mark.plus, Mark.countOpen], b ≠ mark)
    (rest : Bytes) :
  Unquantified (b :: rest)
  := by
  simp [Unquantified, quantifier?, h]

theorem quantifier_of_unquantified {s : Bytes} (h : Unquantified s) (total : Nat) :
  quantifier total s = ⟨.once, s, []⟩
  := by
  rw [quantifier, h.1, malformedCount, startsMalformedCount, decide_eq_false h.2]
  rfl

/-- The bounds of an element are read back, when the next element is no quantifier. -/
theorem quantifier_print {q : Quantifier} (h : q.Normal) {rest : Bytes}
    (hrest : Unquantified rest) (total : Nat) :
  quantifier total (q.print ++ rest) = ⟨q.reps, rest, []⟩
  := by
  by_cases hq : q = .omitted
  · rw [hq]
    apply quantifier_of_unquantified hrest
  · rw [quantifier, quantifier?_print hq h]

/-! ### Texts -/

/-- The byte may stand at the front of a printed byte of a text. -/
def Plain (b : UInt8) : Prop := b = Mark.escape ∨ 0x80 ≤ b

section Plain

variable {b : UInt8}

/-- No mark but the escape mark stands at the front of a printed byte. -/
theorem Plain.ne_marks (h : Plain b) :
  ∀ mark ∈ [Mark.optional, Mark.star, Mark.plus, Mark.countOpen, Mark.groupOpen,
    Mark.groupClose, Mark.comma, Mark.replace, Mark.classOpen, Mark.classClose, Mark.setOpen,
    Mark.negate, Mark.range, Mark.setClose, Mark.wildcard], b ≠ mark
  := by
  intro mark hmark
  have hascii : mark ≠ Mark.escape ∧ mark < 0x80 := by
    revert mark
    decide +kernel
  rintro rfl
  rcases h with h | h
  · exact hascii.1 h
  · exact UInt8.not_le.mpr hascii.2 h

theorem Plain.endsBranch (h : Plain b) :
  Mark.endsBranch b = false
  := by
  simp [Mark.endsBranch, h.ne_marks]

theorem Plain.endsBranchReplacement (h : Plain b) :
  Mark.endsBranchReplacement b = false
  := by
  simp [Mark.endsBranchReplacement, h.ne_marks]

theorem Plain.endsMember (h : Plain b) :
  Mark.endsMember b = false
  := by
  simp [Mark.endsMember, h.ne_marks]

theorem Plain.endsMemberReplacement (h : Plain b) :
  Mark.endsMemberReplacement b = false
  := by
  simp [Mark.endsMemberReplacement, h.ne_marks]

theorem Plain.beginsItem (h : Plain b) :
  Mark.beginsItem b = false
  := by
  simp [Mark.beginsItem, h.ne_marks]

theorem Plain.unquantified (h : Plain b) (rest : Bytes) :
  Unquantified (b :: rest)
  := by
  apply unquantified_cons
  simp [h.ne_marks]

end Plain

/-- A byte of a text is read back. -/
theorem exists_textByte (total : Nat) (b : UInt8) (rest : Bytes) :
  ∃ c s, printByte b ++ rest = c :: s ∧ Plain c ∧ textByte total c s = ⟨b, rest, []⟩
  := by
  rw [printByte]
  split
  · use Mark.escape, b :: rest, rfl, .inl rfl
    exact if_pos rfl
  · next h =>
    use b, rest, rfl, .inr (UInt8.not_lt.mp h)
    apply if_neg
    rintro rfl
    exact h (by decide)

/-- The bytes spell a text: each byte of the text stands there behind an escape mark, or as it is
if it is no ASCII byte. -/
inductive Spells : Bytes → Bytes → Prop
  | nil : Spells [] []
  | escaped (b : UInt8) {s text : Bytes} (h : Spells s text) :
      Spells (Mark.escape :: b :: s) (b :: text)
  | plain {b : UInt8} (hb : 0x80 ≤ b) {s text : Bytes} (h : Spells s text) :
      Spells (b :: s) (b :: text)

theorem spells_printText (text : Bytes) :
  Spells (printText text) text
  := by
  induction text with
  | nil => exact .nil
  | cons b text ih =>
      rw [printText, List.flatMap_cons, printByte]
      split
      · exact .escaped b ih
      · next h => exact .plain (UInt8.not_lt.mp h) ih

/-- The first byte of a text that is spelled out is read from the front. -/
theorem Spells.exists_textByte {s text : Bytes} {b : UInt8} (h : Spells s (b :: text))
    (total : Nat) (rest : Bytes) :
  ∃ c t s', s ++ rest = c :: t ∧ Plain c ∧ textByte total c t = ⟨b, s' ++ rest, []⟩ ∧
    Spells s' text
  := by
  cases h with
  | @escaped _ s _ h => exact ⟨_, _, s, rfl, .inl rfl, if_pos rfl, h⟩
  | @plain _ hb s _ h =>
      refine ⟨b, _, s, rfl, .inr hb, if_neg ?_, h⟩
      rintro rfl
      exact absurd hb (by decide)

theorem textUntil_printText {stops : UInt8 → Bool} (hstops : ∀ {b}, Plain b → stops b = false)
    (total : Nat) (text : Bytes) {b : UInt8} (hb : stops b = true) (rest : Bytes) :
  textUntil total stops (printText text ++ b :: rest) = ⟨text, b :: rest, []⟩
  := by
  induction text with
  | nil => rw [printText, List.flatMap_nil, List.nil_append, textUntil, if_pos hb]
  | cons a text ih =>
      obtain ⟨c, s, hs, hc, hbyte⟩ := exists_textByte total a (printText text ++ b :: rest)
      rw [printText, List.flatMap_cons, List.append_assoc, ← printText, hs, textUntil,
        if_neg (Bool.eq_false_iff.mp (hstops hc)), hbyte]
      dsimp only
      rw [ih]
      rfl

theorem replacement_printReplacement {stops : UInt8 → Bool}
    (hstops : ∀ {b}, Plain b → stops b = false) (total : Nat) (text : Option Bytes) {b : UInt8}
    (hb : stops b = true) (hreplace : b ≠ Mark.replace) (rest : Bytes) :
  replacement total stops (printReplacement text ++ b :: rest) = ⟨text, b :: rest, []⟩
  := by
  cases text with
  | none => exact if_neg hreplace
  | some text =>
      rw [printReplacement, List.cons_append, replacement, if_pos rfl,
        textUntil_printText hstops total text hb]

/-- A replacement begins with its mark, or there is none. -/
theorem exists_cons_printReplacement (text : Option Bytes) (b : UInt8) (rest : Bytes) :
  ∃ c s, printReplacement text ++ b :: rest = c :: s ∧ (c = Mark.replace ∨ c = b)
  := by
  cases text with
  | none => use b, rest, rfl, .inr rfl
  | some text => use Mark.replace, printText text ++ b :: rest, rfl, .inl rfl

/-! ### Class references -/

/-- A member is read back up to a mark that ends its replacement. -/
theorem textUntil_declaration (total : Nat) (d : Declaration) {b : UInt8}
    (hb : Mark.endsMemberReplacement b = true) (rest : Bytes) :
  textUntil total Mark.endsMember (d.print ++ b :: rest) =
    ⟨d.text, printReplacement d.replacement ++ b :: rest, []⟩
  := by
  obtain ⟨c, s, hs, hc⟩ := exists_cons_printReplacement d.replacement b rest
  have hends : Mark.endsMember c = true := by
    rcases hc with rfl | rfl
    · rfl
    · exact Bool.or_eq_true_iff.mpr (.inl hb)
  rw [Declaration.print, List.append_assoc, hs,
    textUntil_printText Plain.endsMember total d.text hends]

/-- A member is read back unless it is empty, and behind a comma so are more members. -/
theorem members_declaration (total : Nat) (d : Declaration) {b : UInt8}
    (hb : Mark.endsMemberReplacement b = true) (rest : Bytes) :
  members total (d.print ++ b :: rest) =
    let here := if d.text.isEmpty then [] else [d.member]
    match after? Mark.comma (b :: rest) with
    | some rest =>
      let more := members total rest
      ⟨here ++ more.value, more.rest, more.warnings⟩
    | none => ⟨here, b :: rest, []⟩
  := by
  have hreplace : b ≠ Mark.replace := by
    rintro rfl
    cases hb
  have hreplaced := replacement_printReplacement Plain.endsMemberReplacement total
    d.replacement hb hreplace rest
  rw [members]
  dsimp only
  rw [textUntil_declaration total d hb]
  dsimp only
  rw [hreplaced]
  cases after? Mark.comma (b :: rest) with
  | none => rfl
  | some rest => rfl

theorem members_printed (total : Nat) (declared : List Declaration)
    (h : ∀ d ∈ declared, d.text ≠ []) (rest : Bytes) :
  members total ([Mark.comma].intercalate (declared.map Declaration.print) ++
    Mark.classClose :: rest) =
    ⟨declared.map Declaration.member, Mark.classClose :: rest, []⟩
  := by
  induction declared with
  | nil => exact members_declaration total ⟨[], none⟩ (b := Mark.classClose) rfl rest
  | cons d ds ih =>
      obtain ⟨hd, hds⟩ := List.forall_mem_cons.mp h
      have hhere : ¬ d.text.isEmpty = true := by simpa using hd
      cases ds with
      | nil =>
          rw [List.map_singleton, List.intercalate_singleton, members_declaration total d rfl,
            if_neg hhere]
          rfl
      | cons e ds =>
          rw [List.map_cons, List.map_cons, List.intercalate_cons_cons, List.append_assoc,
            List.append_assoc, List.singleton_append, members_declaration total d rfl,
            after?_self, if_neg hhere]
          dsimp only
          rw [← List.map_cons, ih hds]
          rfl

/-- A name goes up to the first byte that may end it. -/
theorem span_name {name : Bytes} (h : ∀ b ∈ name, Mark.endsName b = false) {b : UInt8}
    (hb : Mark.endsName b = true) (rest : Bytes) :
  (name ++ b :: rest).takeWhile (!Mark.endsName ·) = name ∧
    (name ++ b :: rest).dropWhile (!Mark.endsName ·) = b :: rest
  := by
  have hname : ∀ b ∈ name, (!Mark.endsName b) = true := by simpa using h
  constructor
  · rw [List.takeWhile_append_of_pos hname, List.takeWhile_cons, hb, Bool.not_true,
      if_neg Bool.false_ne_true, List.append_nil]
  · rw [List.dropWhile_append_of_pos hname, List.dropWhile_cons, hb, Bool.not_true,
      if_neg Bool.false_ne_true]

theorem nameAndMembers_printed {name : Bytes} {declared : Option (List Declaration)}
    {q : Quantifier} (h : (Atom.reference name declared).Normal q) (total : Nat)
    (rest : Bytes) :
  nameAndMembers total (name ++ (printDeclared declared ++ Mark.classClose :: rest)) =
    ⟨⟨name, (declared.getD []).map Declaration.member⟩, Mark.classClose :: rest, []⟩
  := by
  obtain ⟨hname, hdeclared⟩ := h
  cases declared with
  | none =>
      obtain ⟨htake, hdrop⟩ := span_name hname (b := Mark.classClose) rfl rest
      rw [printDeclared, List.nil_append, nameAndMembers, htake, hdrop,
        after?_of_ne (by decide)]
      rfl
  | some declared =>
      obtain ⟨htake, hdrop⟩ := span_name hname (b := Mark.declare) rfl
        ([Mark.comma].intercalate (declared.map Declaration.print) ++ Mark.classClose :: rest)
      rw [printDeclared, List.cons_append, nameAndMembers, htake, hdrop, after?_self]
      dsimp only
      rw [members_printed total declared hdeclared]
      rfl

theorem reference_printed {name : Bytes} {declared : Option (List Declaration)}
    {q : Quantifier} (h : (Atom.reference name declared).Normal q) (total pos : Nat)
    (rest : Bytes) :
  reference total pos (name ++ (printDeclared declared ++ Mark.classClose :: rest)) =
    ⟨⟨name, (declared.getD []).map Declaration.member⟩, rest, []⟩
  := by
  rw [reference, nameAndMembers_printed h]
  dsimp only
  rw [after?_self]

/-! ### Sets -/

theorem exists_cons_printItem (item : SetItem) (rest : Bytes) :
  ∃ c s, printItem item ++ rest = c :: s ∧ Plain c
  := by
  cases item with
  | single a =>
      obtain ⟨c, s, hs, hc, -⟩ := exists_textByte 0 a rest
      use c, s, hs
  | interval one other =>
      obtain ⟨c, s, hs, hc, -⟩ := exists_textByte 0 one (Mark.range :: printByte other ++ rest)
      use c, s, by rw [printItem, List.append_assoc, hs]

/-- An item of a set is read back, unless a range mark stands behind it. -/
theorem exists_setItem (total : Nat) (item : SetItem) {rest : Bytes}
    (hrest : rest.head? ≠ some Mark.range) :
  ∃ c s, printItem item ++ rest = c :: s ∧ Plain c ∧ setItem total c s = ⟨item, rest, []⟩
  := by
  cases item with
  | single a =>
      obtain ⟨c, s, hs, hc, hbyte⟩ := exists_textByte total a rest
      use c, s, hs, hc
      rw [setItem, hbyte]
      match rest with
      | [] => rfl
      | [_] => rfl
      | b :: d :: rest =>
          apply if_neg
          rintro ⟨rfl, -⟩
          exact hrest rfl
  | interval one other =>
      obtain ⟨d, t, ht, hd, hother⟩ := exists_textByte total other rest
      obtain ⟨c, s, hs, hc, hone⟩ := exists_textByte total one (Mark.range :: d :: t)
      refine ⟨c, s, ?_, hc, ?_⟩
      · rw [printItem, List.append_assoc, List.cons_append, ht, hs]
      · have hmark : Mark.range = Mark.range ∧ d ≠ Mark.setClose :=
          ⟨rfl, hd.ne_marks Mark.setClose (by decide)⟩
        rw [setItem, hone]
        dsimp only
        rw [if_pos hmark, hother]
        rfl

theorem head?_printed_items (items : List SetItem) (rest : Bytes) :
  (items.flatMap printItem ++ Mark.setClose :: rest).head? ≠ some Mark.range
  := by
  cases items with
  | nil =>
      rw [List.flatMap_nil, List.nil_append, List.head?_cons]
      decide
  | cons item items =>
      obtain ⟨c, s, hs, hc⟩ :=
        exists_cons_printItem item (items.flatMap printItem ++ Mark.setClose :: rest)
      rw [List.flatMap_cons, List.append_assoc, hs, List.head?_cons]
      intro h
      apply hc.ne_marks Mark.range (by decide) (Option.some.inj h)

/-- The items of a set are read back up to its end, if there is one at least. -/
theorem setItems_printed (total pos : Nat) (first : Bool) {items : List SetItem}
    (h : first = true → items ≠ []) (rest : Bytes) :
  setItems total pos first (items.flatMap printItem ++ Mark.setClose :: rest) =
    ⟨items, rest, []⟩
  := by
  induction items generalizing first with
  | nil =>
      have hfirst : (!first) = true := by simpa using h
      rw [List.flatMap_nil, List.nil_append, setItems, if_pos ⟨rfl, hfirst⟩]
  | cons item items ih =>
      obtain ⟨c, s, hs, hc, hitem⟩ := exists_setItem total item (head?_printed_items items rest)
      have hclose : ¬ (c = Mark.setClose ∧ (!first) = true) :=
        fun h => hc.ne_marks Mark.setClose (by decide) h.1
      rw [List.flatMap_cons, List.append_assoc, hs, setItems, if_neg hclose, hitem]
      dsimp only
      rw [ih false fun hfirst => absurd hfirst Bool.false_ne_true]
      rfl

theorem set_printed (total pos : Nat) (negated : Bool) (first : SetItem) (more : List SetItem)
    (rest : Bytes) :
  set total pos ((if negated then [Mark.negate] else []) ++
    ((first :: more).flatMap printItem ++ Mark.setClose :: rest)) =
    ⟨.ofItems negated (first :: more), rest, []⟩
  := by
  have hitems := setItems_printed total pos true (fun _ => List.cons_ne_nil first more) rest
  cases negated with
  | true =>
      rw [if_pos rfl, List.singleton_append, set, List.head?_cons, if_pos rfl, List.tail_cons,
        hitems]
      rfl
  | false =>
      obtain ⟨c, s, hs, hc⟩ :=
        exists_cons_printItem first (more.flatMap printItem ++ Mark.setClose :: rest)
      have hnegate : ¬ some c = some Mark.negate :=
        fun h => hc.ne_marks Mark.negate (by decide) (Option.some.inj h)
      rw [List.flatMap_cons, List.append_assoc, hs] at hitems ⊢
      rw [if_neg Bool.false_ne_true, List.nil_append, set, List.head?_cons, if_neg hnegate,
        hitems, decide_eq_false hnegate]

end Source

end Respell
