import Respell.Proofs.Source.Rest
import Respell.Proofs.Source.Unclosed

/-!
# Closing what is not closed

With the mark that it lacks right behind the pattern, a set, a reference or the end of a branch
is read as before, but it is closed: the mark is a byte that stops the scan that came upon the end
of the pattern.  Nothing that ends before the end of the pattern lacks a mark, so at most one item
does.
-/

namespace Respell

namespace Source

/-! ### References with the missing mark behind them -/

theorem ne_of_after? {mark : UInt8} {s : Bytes} (h : after? mark s = none) :
  ∀ b ∈ s.head?, b ≠ mark
  := by
  cases s with
  | nil => exact fun b hb => nomatch hb
  | cons b s =>
      rintro _ hb rfl
      obtain rfl := Option.some.inj hb
      rw [after?_self] at h
      cases h

theorem stops_of_textUntil {total : Nat} {stops : UInt8 → Bool} {s : Bytes} :
  ∀ b ∈ (textUntil total stops s).rest.head?, stops b = true
  := by
  fun_induction textUntil total stops s with
  | case1 =>
      intro b hb
      cases hb
  | case2 b rest hb =>
      intro b' hb'
      obtain rfl := Option.some.inj hb'
      apply hb
  | case3 b rest hb first more ih => apply ih

theorem stops_of_replacement {total : Nat} {stops : UInt8 → Bool} {s : Bytes} :
  ∀ b ∈ (replacement total stops s).rest.head?, stops b = true ∨ b ∈ s.head? ∧ b ≠ Mark.replace
  := by
  cases s with
  | nil => exact fun b hb => nomatch hb
  | cons b s =>
      rw [replacement]
      split
      · exact fun b' hb' => .inl (stops_of_textUntil b' hb')
      · next hb =>
        intro b' hb'
        obtain rfl := Option.some.inj hb'
        exact .inr ⟨rfl, hb⟩

/-- The members of a class end where the pattern or the reference ends. -/
theorem classClose_of_members {total : Nat} {s : Bytes} :
  ∀ b ∈ (members total s).rest.head?, b = Mark.classClose
  := by
  fun_induction members total s with
  | case1 s text replaced here rest h more ih => apply ih
  | case2 s text replaced here h =>
      intro b hb
      have hcomma := ne_of_after? h b hb
      have hstops : Mark.endsMember b = true ∧ b ≠ Mark.replace := by
        rcases stops_of_replacement b hb with hb | ⟨hb, hreplace⟩
        · rcases Bool.or_eq_true_iff.mp hb with hb | hb
          · exact absurd (of_decide_eq_true hb) hcomma
          · obtain rfl := of_decide_eq_true hb
            exact ⟨rfl, by decide⟩
        · exact ⟨stops_of_textUntil b hb, hreplace⟩
      simpa [Mark.endsMember, hcomma, hstops.2] using hstops.1

theorem classClose_of_nameAndMembers {total : Nat} {s : Bytes} :
  ∀ b ∈ (nameAndMembers total s).rest.head?, b = Mark.classClose
  := by
  simp only [nameAndMembers]
  split
  · apply classClose_of_members
  · next h =>
    intro b hb
    have hname : Mark.endsName b = true := by
      have hnot := List.head?_dropWhile_not (!Mark.endsName ·) s
      rw [Option.mem_def.mp hb] at hnot
      simpa using hnot
    simpa [Mark.endsName, ne_of_after? h b hb] using hname

/-- The text and the replacement of a member. -/
theorem member_append {total : Nat} {s c : Bytes} {text : Scan Bytes}
    {replaced : Scan (Option Bytes)} (htext : textUntil total Mark.endsMember s = text)
    (hreplaced : replacement total Mark.endsMemberReplacement text.rest = replaced)
    (h : NoEscape (text.warnings ++ replaced.warnings))
    (hc : StopsAt (· = Mark.classClose) replaced.rest c) :
  textUntil (total + c.length) Mark.endsMember (s ++ c) = text.behind c ∧
    replacement (total + c.length) Mark.endsMemberReplacement (text.rest ++ c) =
      replaced.behind c
  := by
  have hrest : text.rest = [] → replaced.rest = [] := by
    intro hnil
    rw [← hreplaced, hnil]
    rfl
  subst htext
  subst hreplaced
  obtain ⟨htext, hreplaced⟩ := (noEscape_append _ _).mp h
  constructor
  · apply textUntil_append htext
    intro hnil b hb
    rw [hc (hrest hnil) b hb]
    rfl
  · apply replacement_append hreplaced
    intro hnil b hb
    rw [hc hnil b hb]
    exact ⟨rfl, by decide⟩

/-- The member with a text, and its replacement if it has one.  Without text there is none. -/
def memberOfText (text : Bytes) (replaced : Option Bytes) : List Member :=
  if text.isEmpty then [] else [Member.ofText text replaced]

section Members

variable {total : Nat} {s rest : Bytes} {text : Scan Bytes} {replaced : Scan (Option Bytes)}
  (htext : textUntil total Mark.endsMember s = text)
  (hreplaced : replacement total Mark.endsMemberReplacement text.rest = replaced)

include htext hreplaced

theorem members_of_some (h : after? Mark.comma replaced.rest = some rest) :
  members total s =
    let more := members total rest
    ⟨memberOfText text.value replaced.value ++ more.value, more.rest,
      text.warnings ++ replaced.warnings ++ more.warnings⟩
  := by
  rw [members]
  dsimp only
  rw [htext, hreplaced]
  split
  · next rest' h' =>
    rw [h] at h'
    obtain rfl := Option.some.inj h'
    rfl
  · next h' =>
    rw [h] at h'
    cases h'

theorem members_of_none (h : after? Mark.comma replaced.rest = none) :
  members total s =
    ⟨memberOfText text.value replaced.value, replaced.rest, text.warnings ++ replaced.warnings⟩
  := by
  rw [members]
  dsimp only
  rw [htext, hreplaced]
  split
  · next rest' h' =>
    rw [h] at h'
    cases h'
  · rfl

end Members

theorem members_append {total : Nat} {s c : Bytes} (h : NoEscape (members total s).warnings)
    (hc : StopsAt (· = Mark.classClose) (members total s).rest c) :
  members (total + c.length) (s ++ c) = (members total s).behind c
  := by
  fun_induction members total s with
  | case1 s text replaced here rest hcomma more ih =>
      obtain ⟨h, hmore⟩ := (noEscape_append _ _).mp h
      have hrest : replaced.rest ≠ [] := by
        intro hnil
        rw [hnil] at hcomma
        cases hcomma
      obtain ⟨htext, hreplaced⟩ := member_append rfl rfl h fun hnil => absurd hnil hrest
      have hmark : after? Mark.comma (replaced.rest ++ c) = some (rest ++ c) := by
        rw [after?_append _ fun hnil => absurd hnil hrest, hcomma]
        rfl
      rw [members_of_some htext hreplaced hmark, ih hmore hc]
      rfl
  | case2 s text replaced here hcomma =>
      obtain ⟨htext, hreplaced⟩ := member_append rfl rfl h hc
      have hmark : after? Mark.comma (replaced.rest ++ c) = none := by
        rw [after?_append, hcomma]
        · rfl
        · intro hnil
          cases c with
          | nil => rfl
          | cons b c =>
              rw [hc hnil b rfl]
              apply after?_of_ne
              decide
      rw [members_of_none htext hreplaced hmark]
      rfl

theorem nameAndMembers_append {total : Nat} {s c : Bytes}
    (h : NoEscape (nameAndMembers total s).warnings)
    (hc : StopsAt (· = Mark.classClose) (nameAndMembers total s).rest c) :
  nameAndMembers (total + c.length) (s ++ c) = (nameAndMembers total s).behind c
  := by
  simp only [nameAndMembers] at h hc ⊢
  have hname : StopsAt (fun b => (!Mark.endsName b) = false)
      (s.dropWhile (!Mark.endsName ·)) c := by
    intro hnil b hb
    rw [hnil] at hc
    rw [hc rfl b hb]
    rfl
  obtain ⟨htake, hdrop⟩ := span_append hname
  have hmark : after? Mark.declare (s.dropWhile (!Mark.endsName ·) ++ c) =
      (after? Mark.declare (s.dropWhile (!Mark.endsName ·))).map (· ++ c) := by
    apply after?_append
    intro hnil
    rw [hnil] at hc
    cases c with
    | nil => rfl
    | cons b c =>
        rw [hc rfl b rfl]
        apply after?_of_ne
        decide
  rw [htake, hdrop, hmark]
  cases hdeclare : after? Mark.declare (s.dropWhile (!Mark.endsName ·)) with
  | none => rfl
  | some rest =>
      rw [hdeclare] at h hc
      dsimp only [Option.map_some]
      rw [members_append h hc]
      rfl

/-- A reference is closed by its mark, or else it ends with the pattern. -/
theorem reference_cases (total pos : Nat) (s : Bytes) :
  let read := nameAndMembers total s
  (∃ rest, after? Mark.classClose read.rest = some rest ∧
      reference total pos s = ⟨read.value, rest, read.warnings⟩) ∨
    read.rest = [] ∧
      reference total pos s = ⟨read.value, [], read.warnings ++ [.unclosedReference pos]⟩
  := by
  intro read
  simp only [reference]
  cases hclose : after? Mark.classClose read.rest with
  | some rest => exact .inl ⟨rest, rfl, rfl⟩
  | none =>
      right
      have hrest : read.rest = [] := by
        apply List.head?_eq_none_iff.mp
        apply Option.eq_none_iff_forall_not_mem.mpr
        intro b hb
        exact ne_of_after? hclose b hb (classClose_of_nameAndMembers b hb)
      rw [hrest]
      exact ⟨rfl, rfl⟩

/-- A reference that is not closed ends with the pattern. -/
theorem rest_of_reference {total pos : Nat} {s : Bytes}
    (h : closers (reference total pos s).warnings ≠ []) :
  (reference total pos s).rest = []
  := by
  obtain ⟨rest, -, href⟩ | ⟨-, href⟩ := reference_cases total pos s
  · rw [href] at h
    exact absurd (closers_nameAndMembers total s) h
  · rw [href]

/-- With the mark that it lacks behind it, if it lacks one, a reference is closed. -/
theorem reference_append {total pos : Nat} {s : Bytes} {x : Scan Reference}
    (hx : reference total pos s = x) (h : NoEscape x.warnings) (c : Bytes) :
  reference (total + (closers x.warnings ++ c).length) pos (s ++ (closers x.warnings ++ c)) =
    ⟨x.value, x.rest ++ c, others x.warnings⟩
  := by
  have hclosed := closers_nameAndMembers total s
  obtain ⟨rest, hclose, href⟩ | ⟨hrest, href⟩ := reference_cases total pos s
  · obtain rfl := hx.symm.trans href
    have hne : (nameAndMembers total s).rest ≠ [] := by
      intro hnil
      rw [hnil] at hclose
      cases hclose
    dsimp only
    rw [hclosed, others_of_closed hclosed, List.nil_append, reference,
      nameAndMembers_append h fun hnil => absurd hnil hne]
    dsimp only [Scan.behind]
    rw [after?_append _ fun hnil => absurd hnil hne, hclose]
    rfl
  · obtain rfl := hx.symm.trans href
    obtain ⟨h, -⟩ := (noEscape_append _ _).mp h
    have hstops : StopsAt (· = Mark.classClose) (nameAndMembers total s).rest
        (Mark.classClose :: c) := fun _ b hb => (Option.some.inj hb).symm
    have hmark : closers [.unclosedReference pos] = [Mark.classClose] := rfl
    have hothers : others [.unclosedReference pos] = [] := rfl
    dsimp only
    rw [closers_append, hclosed, hmark, others_append, others_of_closed hclosed, hothers,
      List.nil_append, List.singleton_append, List.append_nil, reference,
      nameAndMembers_append h hstops]
    dsimp only [Scan.behind]
    rw [hrest, List.nil_append, after?_self]
    rfl

/-! ### Sets with the missing mark behind them -/

/-- An item of a set with bytes behind it.  A range mark at the end of the pattern is a byte of
the set, and stays one only if the set ends behind it. -/
theorem setItem_append {total : Nat} {b : UInt8} {rest c : Bytes}
    (h : NoEscape (setItem total b rest).warnings)
    (hc : (setItem total b rest).rest = [] ∨ (setItem total b rest).rest = [Mark.range] →
      ∀ b ∈ c.head?, b = Mark.setClose) :
  setItem (total + c.length) b (rest ++ c) = (setItem total b rest).behind c
  := by
  have hone : NoEscape (textByte total b rest).warnings := by
    simp only [setItem] at h
    split at h
    · split at h
      · exact ((noEscape_append _ _).mp h).1
      · exact h
    · exact h
  simp only [setItem] at h hc ⊢
  rw [textByte_append hone]
  dsimp only [Scan.behind]
  generalize textByte total b rest = one at h hc ⊢
  obtain ⟨value, left, warnings⟩ := one
  cases left with
  | nil =>
      -- What stands behind the item closes the set, so it starts no range.
      cases c with
      | nil => rfl
      | cons d c =>
          obtain rfl := hc (.inl rfl) d rfl
          cases c with
          | nil => rfl
          | cons e c => rfl
  | cons mark left =>
      cases left with
      | nil =>
          cases c with
          | nil => rfl
          | cons d c =>
              have hmark : ¬ (mark = Mark.range ∧ d ≠ Mark.setClose) := by
                rintro ⟨rfl, hd⟩
                exact hd (hc (.inr rfl) d rfl)
              dsimp only [List.singleton_append]
              rw [if_neg hmark]
      | cons d left =>
          dsimp only [List.cons_append] at h ⊢
          split
          · next hmark =>
            rw [if_pos hmark] at h
            obtain ⟨-, h⟩ := (noEscape_append _ _).mp h
            rw [textByte_append h]
            rfl
          · rfl

theorem setItems_cases (total pos : Nat) (first : Bool) (s : Bytes) :
  closers (setItems total pos first s).warnings = [] ∨
    (setItems total pos first s).rest = [] ∧
      .unclosedSet pos ∈ (setItems total pos first s).warnings ∧
      closers (setItems total pos first s).warnings = [Mark.setClose]
  := by
  fun_induction setItems total pos first s with
  | case1 => exact .inr ⟨rfl, List.mem_singleton_self _, rfl⟩
  | case2 => exact .inl rfl
  | case3 first b rest h item more ih =>
      rw [closers_append, closers_setItem, List.nil_append]
      apply ih.imp_right
      rintro ⟨hrest, hmem, hclosers⟩
      exact ⟨hrest, List.mem_append_right _ hmem, hclosers⟩

theorem closers_setItems_nil (total pos : Nat) (first : Bool) :
  closers (setItems total pos first []).warnings = [Mark.setClose]
  := by
  rw [setItems]
  rfl

/-- A range mark does not close a set, and neither does the end of the pattern. -/
theorem closers_setItems_of_end {total pos : Nat} {s : Bytes} (h : s = [] ∨ s = [Mark.range]) :
  closers (setItems total pos false s).warnings = [Mark.setClose]
  := by
  rcases h with rfl | rfl
  · apply closers_setItems_nil
  · rw [setItems, if_neg (by decide)]
    dsimp only
    rw [closers_append, closers_setItem, List.nil_append]
    exact closers_setItems_nil total pos false

/-- With the mark that it lacks behind it, if it lacks one, a set is closed.  In front of its
first item the mark would be a byte of the set. -/
theorem setItems_append {total pos : Nat} {first : Bool} {s : Bytes} {x : Scan (List SetItem)}
    (hx : setItems total pos first s = x) (h : NoEscape x.warnings)
    (hfirst : s = [] → first = false) (c : Bytes) :
  setItems (total + (closers x.warnings ++ c).length) pos first
      (s ++ (closers x.warnings ++ c)) =
    ⟨x.value, x.rest ++ c, others x.warnings⟩
  := by
  subst hx
  fun_induction setItems total pos first s with
  | case1 first =>
      obtain rfl := hfirst rfl
      change setItems _ pos false (Mark.setClose :: c) = _
      rw [setItems, if_pos ⟨rfl, rfl⟩]
      rfl
  | case2 first b rest hclose =>
      rw [List.cons_append, setItems, if_pos hclose]
      rfl
  | case3 first b rest hclose item more ih =>
      obtain ⟨hitem, hmore⟩ := (noEscape_append _ _).mp h
      have hend : item.rest = [] ∨ item.rest = [Mark.range] →
          ∀ b ∈ (closers more.warnings ++ c).head?, b = Mark.setClose := by
        intro hend b hb
        rw [closers_setItems_of_end hend] at hb
        exact (Option.some.inj hb).symm
      have hclosed : closers item.warnings = [] := closers_setItem total b rest
      dsimp only
      rw [closers_append, others_append, hclosed, others_of_closed hclosed, List.nil_append,
        List.cons_append, setItems, if_neg hclose]
      dsimp only
      rw [setItem_append hitem hend]
      dsimp only [Scan.behind]
      rw [ih (fun _ => rfl) hmore]

/-- A set that is not closed has its warning, and ends with the pattern. -/
theorem set_cases (total pos : Nat) (s : Bytes) :
  closers (set total pos s).warnings = [] ∨
    (set total pos s).rest = [] ∧ .unclosedSet pos ∈ (set total pos s).warnings
  := by
  rcases setItems_cases total pos true (if s.head? = some Mark.negate then s.tail else s) with
    h | ⟨hrest, hmem, -⟩
  · exact .inl h
  · exact .inr ⟨hrest, hmem⟩

theorem set_negate (total pos : Nat) (rest : Bytes) :
  set total pos (Mark.negate :: rest) =
    let items := setItems total pos true rest
    ⟨.ofItems true items.value, items.rest, items.warnings⟩
  := rfl

theorem set_of_ne {b : UInt8} (hb : b ≠ Mark.negate) (total pos : Nat) (rest : Bytes) :
  set total pos (b :: rest) =
    let items := setItems total pos true (b :: rest)
    ⟨.ofItems false items.value, items.rest, items.warnings⟩
  := by
  have hhead : ¬ (b :: rest).head? = some Mark.negate := fun h => hb (Option.some.inj h)
  simp only [set, hhead, decide_false, if_false]

/-- With the mark that it lacks behind it, if it lacks one, a set is closed, provided that it has
a member. -/
theorem set_append {total pos : Nat} {s : Bytes} {x : Scan ByteSet} (hx : set total pos s = x)
    (h : NoEscape x.warnings) (hs : closers x.warnings ≠ [] → s ≠ [] ∧ s ≠ [Mark.negate])
    (c : Bytes) :
  set (total + (closers x.warnings ++ c).length) pos (s ++ (closers x.warnings ++ c)) =
    ⟨x.value, x.rest ++ c, others x.warnings⟩
  := by
  subst hx
  have hend : closers (setItems total pos true []).warnings ≠ [] := by
    rw [closers_setItems_nil]
    apply List.cons_ne_nil
  cases s with
  | nil => exact absurd rfl (hs hend).1
  | cons b rest =>
      rw [List.cons_append]
      by_cases hb : b = Mark.negate
      · subst hb
        rw [set_negate] at h hs ⊢
        have hrest : rest = [] → true = false := by
          rintro rfl
          exact absurd rfl (hs hend).2
        rw [set_negate, setItems_append rfl h hrest]
      · rw [set_of_ne hb] at h hs ⊢
        have hrest : b :: rest = [] → true = false := nofun
        rw [set_of_ne hb, ← List.cons_append, setItems_append rfl h hrest]

/-! ### Items -/

/-- The mark that an item lacks beside those of which its warnings tell. -/
def Item.closers : Item → Bytes
  | cutOff _ => [Mark.groupClose]
  | _ => []

/-- The item with this mark. -/
def Item.closed : Item → Item
  | cutOff replacement => groupClose replacement .once
  | item => item

section BranchEnd

variable {total : Nat} {b : UInt8} {rest : Bytes} {replaced : Scan (Option Bytes)}
  (hreplaced : replacement total Mark.endsBranchReplacement (b :: rest) = replaced)

include hreplaced

theorem branchEnd_of_nil (h : replaced.rest = []) :
  branchEnd total b rest = ⟨.cutOff replaced.value, [], replaced.warnings⟩
  := by
  rw [branchEnd, hreplaced]
  dsimp only
  rw [h]

theorem branchEnd_of_comma {t : Bytes} (h : replaced.rest = Mark.comma :: t) :
  branchEnd total b rest = ⟨.branchEnd replaced.value, t, replaced.warnings⟩
  := by
  rw [branchEnd, hreplaced]
  dsimp only
  rw [h]
  exact if_pos rfl

theorem branchEnd_of_cons {d : UInt8} {t : Bytes} (h : replaced.rest = d :: t)
    (hd : d ≠ Mark.comma) :
  branchEnd total b rest =
    let reps := quantifier total t
    ⟨.groupClose replaced.value reps.value, reps.rest, replaced.warnings ++ reps.warnings⟩
  := by
  rw [branchEnd, hreplaced]
  dsimp only
  rw [h]
  exact if_neg hd

end BranchEnd

theorem closers_branchEnd (total : Nat) (b : UInt8) (rest : Bytes) :
  closers (branchEnd total b rest).warnings = []
  := by
  generalize hreplaced : replacement total Mark.endsBranchReplacement (b :: rest) = replaced
  have hclosed := closers_replacement total Mark.endsBranchReplacement (b :: rest)
  rw [hreplaced] at hclosed
  cases hrest : replaced.rest with
  | nil => rw [branchEnd_of_nil hreplaced hrest, hclosed]
  | cons d t =>
      by_cases hd : d = Mark.comma
      · rw [branchEnd_of_comma hreplaced (hd ▸ hrest), hclosed]
      · rw [branchEnd_of_cons hreplaced hrest hd, closers_append, hclosed, closers_quantifier]
        rfl

/-- The end of a branch lacks a mark only if it ends with the pattern. -/
theorem rest_of_branchEnd {total : Nat} {b : UInt8} {rest : Bytes}
    (h : (branchEnd total b rest).value.closers ≠ []) :
  (branchEnd total b rest).rest = []
  := by
  generalize hreplaced : replacement total Mark.endsBranchReplacement (b :: rest) = replaced
  cases hrest : replaced.rest with
  | nil => rw [branchEnd_of_nil hreplaced hrest]
  | cons d t =>
      by_cases hd : d = Mark.comma
      · rw [branchEnd_of_comma hreplaced (hd ▸ hrest)] at h
        exact absurd rfl h
      · rw [branchEnd_of_cons hreplaced hrest hd] at h
        exact absurd rfl h

/-- With the mark that it lacks behind it, if it lacks one, the end of a branch ends its group. -/
theorem branchEnd_append {total : Nat} {b : UInt8} {rest : Bytes} {x : Scan Item}
    (hx : branchEnd total b rest = x) (h : NoEscape x.warnings) {c : Bytes} (hc : Closing c) :
  branchEnd (total + (x.value.closers ++ c).length) b (rest ++ (x.value.closers ++ c)) =
    ⟨x.value.closed, x.rest ++ c, x.warnings⟩
  := by
  generalize hreplaced : replacement total Mark.endsBranchReplacement (b :: rest) = replaced
  have happend : ∀ d, NoEscape replaced.warnings →
      StopsAt (· = Mark.groupClose) replaced.rest d →
      replacement (total + d.length) Mark.endsBranchReplacement (b :: (rest ++ d)) =
        replaced.behind d := by
    subst hreplaced
    intro d hescape hd
    apply replacement_append hescape
    intro hnil a ha
    rw [hd hnil a ha]
    exact ⟨rfl, by decide⟩
  cases hrest : replaced.rest with
  | nil =>
      obtain rfl := hx.symm.trans (branchEnd_of_nil hreplaced hrest)
      have hstops : StopsAt (· = Mark.groupClose) replaced.rest (Mark.groupClose :: c) :=
        fun _ a ha => (Option.some.inj ha).symm
      have hend : (replaced.behind (Mark.groupClose :: c)).rest = Mark.groupClose :: c := by
        rw [Scan.behind, hrest, List.nil_append]
      dsimp only [Item.closers, Item.closed]
      rw [List.singleton_append, branchEnd_of_cons (happend _ h hstops) hend (by decide),
        quantifier_of_unquantified hc.unquantified]
      dsimp only
      rw [List.append_nil]
      rfl
  | cons d t =>
      have hstops : StopsAt (· = Mark.groupClose) replaced.rest c := by
        rw [hrest]
        exact fun hnil => absurd hnil (List.cons_ne_nil d t)
      have hend : (replaced.behind c).rest = d :: (t ++ c) := by
        rw [Scan.behind, hrest, List.cons_append]
      by_cases hd : d = Mark.comma
      · subst hd
        obtain rfl := hx.symm.trans (branchEnd_of_comma hreplaced hrest)
        exact branchEnd_of_comma (happend c h hstops) hend
      · obtain rfl := hx.symm.trans (branchEnd_of_cons hreplaced hrest hd)
        have hescape := ((noEscape_append _ _).mp h).1
        dsimp only [Item.closers, Item.closed]
        rw [List.nil_append, branchEnd_of_cons (happend c hescape hstops) hend hd,
          quantifier_append hc fun _ => rfl]
        rfl

/-- Where the pattern ends, a closing parenthesis ends the innermost group. -/
theorem item_groupClose {c : Bytes} (hc : Closing c) (total : Nat) :
  item total true Mark.groupClose c = ⟨.groupClose none .once, c, []⟩
  := by
  rw [item_end c rfl, branchEnd, replacement, if_neg (by decide)]
  dsimp only
  rw [if_neg (by decide), quantifier_of_unquantified hc.unquantified]
  rfl

/-- An item lacks a mark only if it ends with the pattern. -/
theorem rest_of_item {total : Nat} {inGroup : Bool} {b : UInt8} {rest : Bytes} {x : Scan Item}
    (hx : item total inGroup b rest = x) (h : closers x.warnings ++ x.value.closers ≠ []) :
  x.rest = []
  := by
  subst hx
  rcases item_cases inGroup b with hb | rfl | rfl | rfl | rfl | hb
  · rw [item_end rest hb, closers_branchEnd, List.nil_append] at h
    rw [item_end rest hb]
    exact rest_of_branchEnd h
  · rw [item_groupOpen] at h
    exact absurd rfl h
  · rw [item_classOpen] at h ⊢
    dsimp only [Item.closers] at h ⊢
    rw [closers_append, closers_quantifier, List.append_nil, List.append_nil] at h
    rw [rest_of_reference h, quantifier_of_unquantified unquantified_nil]
  · rw [item_setOpen] at h ⊢
    dsimp only [Item.closers] at h ⊢
    rw [closers_append, closers_quantifier, List.append_nil, List.append_nil] at h
    rcases set_cases total (position total (Mark.setOpen :: rest)) rest with hset | ⟨hrest, -⟩
    · exact absurd hset h
    · rw [hrest, quantifier_of_unquantified unquantified_nil]
  · rw [item_wildcard] at h
    dsimp only [Item.closers] at h
    rw [closers_quantifier] at h
    exact absurd rfl h
  · rw [item_text rest hb] at h
    dsimp only [Item.closers] at h
    rw [closers_textNodes] at h
    exact absurd rfl h

section Append

variable {total : Nat} {inGroup : Bool} {rest c : Bytes} (hc : Closing c)

include hc

/-- The quantifier of what may lack a mark, which ends with the pattern then. -/
theorem quantifier_behind {missing left : Bytes} (hmissing : missing ≠ [] → left = []) :
  quantifier (total + (missing ++ c).length) (left ++ c) = (quantifier total left).behind c
  := by
  apply quantifier_append hc
  intro hleft
  have hnil : missing = [] := by
    by_contra hne
    exact hleft (hmissing hne)
  rw [hnil, List.nil_append]

theorem item_classOpen_append {x : Scan Item} (hx : item total inGroup Mark.classOpen rest = x)
    (h : NoEscape x.warnings) :
  let missing := closers x.warnings ++ x.value.closers
  item (total + (missing ++ c).length) inGroup Mark.classOpen (rest ++ (missing ++ c)) =
    ⟨x.value.closed, x.rest ++ c, others x.warnings⟩
  := by
  rw [item_classOpen] at hx
  generalize href : reference total (position total (Mark.classOpen :: rest)) rest = ref at hx
  have hreps := closers_quantifier total ref.rest
  have hmissing : closers ref.warnings ≠ [] → ref.rest = [] := by
    rw [← href]
    exact rest_of_reference
  subst hx
  dsimp only [Item.closers, Item.closed]
  rw [closers_append, others_append, hreps, others_of_closed hreps, List.append_nil,
    List.append_nil, item_classOpen, ← List.cons_append, position_append,
    reference_append href ((noEscape_append _ _).mp h).1]
  dsimp only
  rw [quantifier_behind hc hmissing]
  rfl

theorem item_setOpen_append {x : Scan Item} (hx : item total inGroup Mark.setOpen rest = x)
    (h : NoEscape x.warnings)
    (hset : .unclosedSet (position total (Mark.setOpen :: rest)) ∈ x.warnings →
      rest ≠ [] ∧ rest ≠ [Mark.negate]) :
  let missing := closers x.warnings ++ x.value.closers
  item (total + (missing ++ c).length) inGroup Mark.setOpen (rest ++ (missing ++ c)) =
    ⟨x.value.closed, x.rest ++ c, others x.warnings⟩
  := by
  rw [item_setOpen] at hx
  have hcases := set_cases total (position total (Mark.setOpen :: rest)) rest
  generalize hmembers : set total (position total (Mark.setOpen :: rest)) rest = members
    at hx hcases
  have hreps := closers_quantifier total members.rest
  subst hx
  have hmissing : closers members.warnings ≠ [] → members.rest = [] :=
    fun hne => (hcases.resolve_left hne).1
  have hmember : closers members.warnings ≠ [] → rest ≠ [] ∧ rest ≠ [Mark.negate] :=
    fun hne => hset (List.mem_append_left _ (hcases.resolve_left hne).2)
  dsimp only [Item.closers, Item.closed]
  rw [closers_append, others_append, hreps, others_of_closed hreps, List.append_nil,
    List.append_nil, item_setOpen, ← List.cons_append, position_append,
    set_append hmembers ((noEscape_append _ _).mp h).1 hmember]
  dsimp only
  rw [quantifier_behind hc hmissing]
  rfl

/-- With the mark that it lacks behind it, if it lacks one, an item is closed. -/
theorem item_append {b : UInt8} {x : Scan Item} (hx : item total inGroup b rest = x)
    (h : NoEscape x.warnings)
    (hset : .unclosedSet (position total (b :: rest)) ∈ x.warnings →
      b :: rest ≠ [Mark.setOpen] ∧ b :: rest ≠ [Mark.setOpen, Mark.negate])
    (hhalts : ∀ ns, x.value = .nodes ns → x.rest = [] → Halts inGroup c) :
  let missing := closers x.warnings ++ x.value.closers
  item (total + (missing ++ c).length) inGroup b (rest ++ (missing ++ c)) =
    ⟨x.value.closed, x.rest ++ c, others x.warnings⟩
  := by
  rcases item_cases inGroup b with hb | rfl | rfl | rfl | rfl | hb
  · have hclosed := closers_branchEnd total b rest
    rw [item_end rest hb] at hx
    rw [hx] at hclosed
    dsimp only
    rw [hclosed, List.nil_append, item_end _ hb, branchEnd_append hx h hc, others_of_closed hclosed]
  · rw [item_groupOpen] at hx
    subst hx
    exact item_groupOpen _
  · exact item_classOpen_append hc hx h
  · apply item_setOpen_append hc hx h
    intro hmem
    obtain ⟨hnil, hnegate⟩ := hset hmem
    constructor
    · rintro rfl
      exact hnil rfl
    · rintro rfl
      exact hnegate rfl
  · rw [item_wildcard] at hx
    have hclosed := closers_quantifier total rest
    subst hx
    dsimp only [Item.closers, Item.closed]
    rw [hclosed, others_of_closed hclosed, item_wildcard, List.nil_append, List.nil_append,
      quantifier_append hc fun _ => rfl]
    rfl
  · rw [item_text rest hb] at hx
    have hclosed := closers_textNodes total inGroup b rest
    subst hx
    dsimp only [Item.closers, Item.closed]
    rw [hclosed, others_of_closed hclosed, item_text _ hb, List.nil_append, List.nil_append,
      textNodes_append hc h (hhalts _ rfl)]
    rfl

end Append

end Source

end Respell
