import Respell.Proofs.Source.PrintedItems

/-!
# Scans with the missing marks behind the pattern

A warning that something is not closed tells which mark is missing.  Only sets and references
have such warnings, and groups.  The scans of texts, quantifiers and runs of text are compared
with what they are when bytes stand behind the pattern.  A scan that ends within the pattern reads
the same then, and a scan that comes upon its end does if the first byte behind the pattern stops
it.
-/

namespace Respell

/-- The mark that closes what a warning says is not closed. -/
def Warning.closer? : Warning → Option UInt8
  | unclosedGroup _ => some Mark.groupClose
  | unclosedSet _ => some Mark.setClose
  | unclosedReference _ => some Mark.classClose
  | _ => none

namespace Source

/-- The marks that close what some warnings say is not closed, in order. -/
def closers (warnings : List Warning) : Bytes := warnings.filterMap Warning.closer?

/-- The warnings about anything else. -/
def others (warnings : List Warning) : List Warning := warnings.filter (·.closer?.isNone)

/-- No escape mark ends the pattern. -/
def NoEscape (warnings : List Warning) : Prop := ∀ w ∈ warnings, ∀ pos, w ≠ .finalEscape pos

section Warnings

variable (ws ws' : List Warning)

theorem closers_append :
  closers (ws ++ ws') = closers ws ++ closers ws'
  := List.filterMap_append

theorem others_append :
  others (ws ++ ws') = others ws ++ others ws'
  := List.filter_append ws ws'

theorem noEscape_append :
  NoEscape (ws ++ ws') ↔ NoEscape ws ∧ NoEscape ws'
  := List.forall_mem_append

variable {ws}

theorem others_of_closed (h : closers ws = []) :
  others ws = ws
  := by
  apply List.filter_eq_self.mpr
  intro w hw
  rw [List.filterMap_eq_nil_iff.mp h w hw]
  rfl

end Warnings

/-- The scan with some bytes behind what is left. -/
def Scan.behind {α : Type} (x : Scan α) (c : Bytes) : Scan α := { x with rest := x.rest ++ c }

theorem position_append (total : Nat) (s c : Bytes) :
  position (total + c.length) (s ++ c) = position total s
  := by
  rw [position, position, List.length_append, Nat.add_sub_add_right]

/-! ### Only sets and references lack a mark -/

theorem closers_textByte (total : Nat) (b : UInt8) (rest : Bytes) :
  closers (textByte total b rest).warnings = []
  := by
  unfold textByte
  split
  · split
    · rfl
    · rfl
  · rfl

theorem closers_textUntil (total : Nat) (stops : UInt8 → Bool) (s : Bytes) :
  closers (textUntil total stops s).warnings = []
  := by
  fun_induction textUntil total stops s with
  | case1 => rfl
  | case2 => rfl
  | case3 b rest h first more ih => rw [closers_append, closers_textByte, ih, List.append_nil]

theorem closers_replacement (total : Nat) (stops : UInt8 → Bool) (s : Bytes) :
  closers (replacement total stops s).warnings = []
  := by
  cases s with
  | nil => rfl
  | cons b rest =>
      rw [replacement]
      split
      · apply closers_textUntil
      · rfl

theorem closers_malformedCount (total : Nat) (s : Bytes) :
  closers (malformedCount total s) = []
  := by
  rw [malformedCount]
  split
  · rfl
  · rfl

theorem closers_quantifier (total : Nat) (s : Bytes) :
  closers (quantifier total s).warnings = []
  := by
  rw [quantifier]
  split
  · rfl
  · apply closers_malformedCount

theorem closers_moreText (total : Nat) (inGroup : Bool) (s : Bytes) :
  closers (moreText total inGroup s).warnings = []
  := by
  fun_induction moreText total inGroup s with
  | case1 => rfl
  | case2 => rfl
  | case3 b rest h first more ih =>
      rw [closers_append, closers_append, closers_malformedCount, closers_textByte, ih]
      rfl

theorem closers_textNodes (total : Nat) (inGroup : Bool) (b : UInt8) (rest : Bytes) :
  closers (textNodes total inGroup b rest).warnings = []
  := by
  have hstray : closers (strayQuantifier total (b :: rest)) = [] := by
    rw [strayQuantifier]
    split
    · rfl
    · rfl
  rw [textNodes, text]
  dsimp only
  rw [closers_append, closers_append, closers_append, hstray, closers_textByte,
    closers_moreText, closers_quantifier]
  rfl

theorem closers_members (total : Nat) (s : Bytes) :
  closers (members total s).warnings = []
  := by
  fun_induction members total s with
  | case1 s text replaced here rest h more ih =>
      rw [closers_append, closers_append, closers_textUntil, closers_replacement, ih]
      rfl
  | case2 s text replaced here h =>
      rw [closers_append, closers_textUntil, closers_replacement]
      rfl

theorem closers_nameAndMembers (total : Nat) (s : Bytes) :
  closers (nameAndMembers total s).warnings = []
  := by
  simp only [nameAndMembers]
  split
  · apply closers_members
  · rfl

theorem closers_setItem (total : Nat) (b : UInt8) (rest : Bytes) :
  closers (setItem total b rest).warnings = []
  := by
  simp only [setItem]
  split
  · split
    · rw [closers_append, closers_textByte, closers_textByte, List.append_nil]
    · apply closers_textByte
  · apply closers_textByte

/-! ### Text with bytes behind it -/

theorem textByte_append {total : Nat} {b : UInt8} {rest : Bytes}
    (h : NoEscape (textByte total b rest).warnings) (c : Bytes) :
  textByte (total + c.length) b (rest ++ c) = (textByte total b rest).behind c
  := by
  rw [textByte.eq_def] at h
  rw [textByte.eq_def, textByte.eq_def]
  split
  · next hb =>
    rw [if_pos hb] at h
    cases rest with
    | nil => exact absurd rfl (h _ List.mem_cons_self _)
    | cons a rest => rfl
  · rfl

/-- Either there is something left, or the byte behind the pattern is one of those. -/
def StopsAt (stop : UInt8 → Prop) (rest c : Bytes) : Prop :=
  rest = [] → ∀ b ∈ c.head?, stop b

theorem textUntil_append {total : Nat} {stops : UInt8 → Bool} {s c : Bytes}
    (h : NoEscape (textUntil total stops s).warnings)
    (hc : StopsAt (stops · = true) (textUntil total stops s).rest c) :
  textUntil (total + c.length) stops (s ++ c) = (textUntil total stops s).behind c
  := by
  fun_induction textUntil total stops s with
  | case1 =>
      cases c with
      | nil => rw [List.append_nil, textUntil]; rfl
      | cons b c => rw [List.nil_append, textUntil, if_pos (hc rfl b rfl)]; rfl
  | case2 b rest hb => rw [List.cons_append, textUntil, if_pos hb]; rfl
  | case3 b rest hb first more ih =>
      obtain ⟨hfirst, hmore⟩ := (noEscape_append _ _).mp h
      rw [List.cons_append, textUntil, if_neg hb]
      dsimp only
      rw [textByte_append hfirst]
      dsimp only [Scan.behind]
      rw [ih hmore hc]
      rfl

theorem replacement_append {total : Nat} {stops : UInt8 → Bool} {s c : Bytes}
    (h : NoEscape (replacement total stops s).warnings)
    (hc : StopsAt (fun b => stops b = true ∧ b ≠ Mark.replace) (replacement total stops s).rest c) :
  replacement (total + c.length) stops (s ++ c) = (replacement total stops s).behind c
  := by
  cases s with
  | nil =>
      cases c with
      | nil => rfl
      | cons b c => exact if_neg (hc rfl b rfl).2
  | cons b rest =>
      rw [replacement] at h hc
      rw [List.cons_append, replacement, replacement]
      split
      · next hb =>
        rw [if_pos hb] at h hc
        rw [textUntil_append h fun hrest b' hb' => (hc hrest b' hb').1]
        rfl
      · rfl

theorem after?_append (mark : UInt8) {s c : Bytes} (hc : s = [] → after? mark c = none) :
  after? mark (s ++ c) = (after? mark s).map (· ++ c)
  := by
  cases s with
  | nil => exact hc rfl
  | cons b s =>
      rw [List.cons_append, after?, after?]
      split
      · rfl
      · rfl

theorem span_append {p : UInt8 → Bool} {s c : Bytes}
    (hc : StopsAt (p · = false) (s.dropWhile p) c) :
  (s ++ c).takeWhile p = s.takeWhile p ∧ (s ++ c).dropWhile p = s.dropWhile p ++ c
  := by
  induction s with
  | nil =>
      cases c with
      | nil => exact ⟨rfl, rfl⟩
      | cons b c =>
          have hb : ¬ p b = true := by
            rw [hc rfl b rfl]
            apply Bool.false_ne_true
          exact ⟨List.takeWhile_cons_of_neg hb, List.dropWhile_cons_of_neg hb⟩
  | cons b s ih =>
      rw [List.cons_append]
      by_cases hb : p b = true
      · rw [List.dropWhile_cons_of_pos hb] at hc
        obtain ⟨htake, hdrop⟩ := ih hc
        rw [List.takeWhile_cons_of_pos hb, List.takeWhile_cons_of_pos hb,
          List.dropWhile_cons_of_pos hb, List.dropWhile_cons_of_pos hb, htake, hdrop]
        exact ⟨rfl, rfl⟩
      · rw [List.takeWhile_cons_of_neg hb, List.takeWhile_cons_of_neg hb,
          List.dropWhile_cons_of_neg hb, List.dropWhile_cons_of_neg hb]
        exact ⟨rfl, rfl⟩

/-! ### Quantifiers and runs of text with closing marks behind them -/

/-- Bytes that begin with a closing mark, if there are any. -/
def Closing (c : Bytes) : Prop :=
  ∀ b ∈ c.head?, b = Mark.setClose ∨ b = Mark.classClose ∨ b = Mark.groupClose

theorem closing_closers (ws : List Warning) :
  Closing (closers ws)
  := by
  intro b hb
  obtain ⟨w, -, hw⟩ := List.mem_filterMap.mp (List.mem_of_mem_head? hb)
  cases w with
  | unclosedGroup pos => exact .inr (.inr (Option.some.inj hw).symm)
  | unclosedSet pos => exact .inl (Option.some.inj hw).symm
  | unclosedReference pos => exact .inr (.inl (Option.some.inj hw).symm)
  | _ => cases hw

section Closing

variable {c : Bytes} (hc : Closing c)

include hc

theorem Closing.isDigit :
  ∀ b ∈ c.head?, Byte.isDigit b = false
  := by
  intro b hb
  rcases hc b hb with rfl | rfl | rfl
  all_goals rfl

theorem Closing.after? {mark : UInt8} (hmark : mark = Mark.comma ∨ mark = Mark.countClose) :
  after? mark c = none
  := by
  cases c with
  | nil => rfl
  | cons b c =>
      apply after?_of_ne
      rcases hc b rfl with rfl | rfl | rfl
      all_goals
        rcases hmark with rfl | rfl
        all_goals decide

theorem Closing.unquantified :
  Unquantified c
  := by
  cases c with
  | nil => apply unquantified_nil
  | cons b c =>
      apply unquantified_cons
      rcases hc b rfl with rfl | rfl | rfl
      all_goals decide +kernel

theorem number?_append (s : Bytes) :
  number? (s ++ c) = (number? s).map fun x => (x.1, x.2 ++ c)
  := by
  obtain ⟨htake, hdrop⟩ := span_append (s := s) fun _ => hc.isDigit
  simp only [number?, htake, hdrop]
  split
  · rfl
  · rfl

theorem count?_append (s : Bytes) :
  count? (s ++ c) = (count? s).map fun x => (x.1, x.2 ++ c)
  := by
  have hcomma : ∀ s, Source.after? Mark.comma (s ++ c) =
      (Source.after? Mark.comma s).map (· ++ c) :=
    fun s => after?_append _ fun _ => hc.after? (.inl rfl)
  have hclose : ∀ s, Source.after? Mark.countClose (s ++ c) =
      (Source.after? Mark.countClose s).map (· ++ c) :=
    fun s => after?_append _ fun _ => hc.after? (.inr rfl)
  rw [count?, count?, number?_append hc]
  cases number? s with
  | none => rfl
  | some least =>
      simp only [Option.map_some, hcomma, hclose]
      cases Source.after? Mark.countClose least.2 with
      | some rest => rfl
      | none =>
          cases Source.after? Mark.comma least.2 with
          | none => rfl
          | some t =>
              simp only [Option.map_some, Option.map_none, hclose, number?_append hc]
              cases Source.after? Mark.countClose t with
              | some rest => rfl
              | none =>
                  cases number? t with
                  | none => rfl
                  | some most =>
                      simp only [Option.map_some, Option.map_none, hclose, Option.map_map]
                      rfl

theorem quantifier?_append (s : Bytes) :
  quantifier? (s ++ c) = (quantifier? s).map fun x => (x.1, x.2 ++ c)
  := by
  cases s with
  | nil => exact hc.unquantified.1
  | cons b s =>
      rw [List.cons_append, quantifier?, quantifier?, count?_append hc]
      split
      · rfl
      split
      · rfl
      split
      · rfl
      split
      · rfl
      · rfl

theorem startsQuantifier_append (s : Bytes) :
  startsQuantifier (s ++ c) = startsQuantifier s
  := by
  rw [startsQuantifier, quantifier?_append hc, Option.isSome_map]
  rfl

theorem malformedCount_append (total : Nat) (b : UInt8) (rest : Bytes) :
  malformedCount (total + c.length) (b :: (rest ++ c)) = malformedCount total (b :: rest)
  := by
  rw [← List.cons_append, malformedCount, malformedCount, startsMalformedCount,
    startsQuantifier_append hc, position_append]
  rfl

/-- Where the pattern ends there is no quantifier, whatever closing marks are put there. -/
theorem quantifier_append {total t : Nat} {s : Bytes}
    (ht : s ≠ [] → t = total + c.length) :
  quantifier t (s ++ c) = (quantifier total s).behind c
  := by
  cases s with
  | nil =>
      rw [List.nil_append, quantifier_of_unquantified hc.unquantified,
        quantifier_of_unquantified unquantified_nil]
      rfl
  | cons b rest =>
      rw [ht (List.cons_ne_nil b rest), quantifier, quantifier, quantifier?_append hc]
      cases quantifier? (b :: rest) with
      | some x => rfl
      | none =>
          rw [Option.map_none, List.cons_append]
          dsimp only
          rw [malformedCount_append hc]
          rfl

theorem endsRun_append (inGroup : Bool) (b : UInt8) (rest : Bytes) :
  endsRun inGroup (b :: (rest ++ c)) = endsRun inGroup (b :: rest)
  := by
  rw [← List.cons_append, endsRun, startsQuantifier_append hc]
  rfl

theorem moreText_append {total : Nat} {inGroup : Bool} {s : Bytes}
    (h : NoEscape (moreText total inGroup s).warnings)
    (hhalts : (moreText total inGroup s).rest = [] → Halts inGroup c) :
  moreText (total + c.length) inGroup (s ++ c) = (moreText total inGroup s).behind c
  := by
  fun_induction moreText total inGroup s with
  | case1 =>
      rcases hhalts rfl with rfl | hends
      · rw [List.append_nil, moreText]
        rfl
      · cases c with
        | nil => cases hends
        | cons b c =>
            rw [List.nil_append, moreText, if_pos hends]
            rfl
  | case2 b rest hends =>
      rw [← endsRun_append hc] at hends
      rw [List.cons_append, moreText, if_pos hends]
      rfl
  | case3 b rest hends first more ih =>
      obtain ⟨h, hmore⟩ := (noEscape_append _ _).mp h
      obtain ⟨-, hfirst⟩ := (noEscape_append _ _).mp h
      rw [← endsRun_append hc] at hends
      rw [List.cons_append, moreText, if_neg hends]
      dsimp only
      rw [malformedCount_append hc, textByte_append hfirst]
      dsimp only [Scan.behind]
      rw [ih hmore hhalts]
      rfl

theorem textNodes_append {total : Nat} {inGroup : Bool} {b : UInt8} {rest : Bytes}
    (h : NoEscape (textNodes total inGroup b rest).warnings)
    (hhalts : (textNodes total inGroup b rest).rest = [] → Halts inGroup c) :
  textNodes (total + c.length) inGroup b (rest ++ c) = (textNodes total inGroup b rest).behind c
  := by
  have hrun : Source.text (total + c.length) inGroup b (rest ++ c) =
      (Source.text total inGroup b rest).behind c := by
    obtain ⟨h, -⟩ := (noEscape_append _ _).mp h
    obtain ⟨h, hmore⟩ := (noEscape_append _ _).mp h
    obtain ⟨-, hfirst⟩ := (noEscape_append _ _).mp h
    have hstray : strayQuantifier (total + c.length) (b :: (rest ++ c)) =
        strayQuantifier total (b :: rest) := by
      rw [← List.cons_append, strayQuantifier, strayQuantifier, startsQuantifier_append hc,
        position_append]
    rw [Source.text, hstray, textByte_append hfirst]
    dsimp only [Scan.behind]
    rw [moreText_append hc hmore]
    · rfl
    · intro hrest
      apply hhalts
      rw [textNodes, Source.text]
      dsimp only
      rw [hrest, quantifier_of_unquantified unquantified_nil]
  have hreps : ∀ s, quantifier (total + c.length) (s ++ c) = (quantifier total s).behind c :=
    fun s => quantifier_append hc fun _ => rfl
  rw [textNodes, hrun]
  simp only [Scan.behind, startsQuantifier_append hc, hreps]
  rfl

end Closing

end Source

end Respell
