import Mathlib.Data.List.TakeDrop
import Respell.Proofs.Source.Leaves
import Respell.Proofs.Source.Roles

/-!
# Bytes and bounds in a pattern and in its source

A pattern is a tree, but from left to right it is a series of signs: bytes, choices among bytes or
members of a class, the parentheses of groups, and bounds behind what they are the bounds of.  Its
source is such a series, too, as the roles of its bytes tell.  They are the same, except that the
groups which are not closed in the source end with it.  So each count in the source gives the bounds
of what is in front of it, no other node has bounds, and whatever is not a count is text.
-/

namespace Respell

/-- What there is at one place of a pattern. -/
inductive Sign where
  /-- A byte of a text. -/
  | byte (b : UInt8)
  /-- One of the bytes of a set or of the members of a class. -/
  | choice
  /-- A group begins. -/
  | groupOpen
  /-- A group ends. -/
  | groupClose
  /-- The bounds of what ends in front of them. -/
  | bounds (reps : Reps)
  deriving DecidableEq

/-- The sign for bounds.  What is there once needs none. -/
def Reps.signs (reps : Reps) : List Sign := if reps = .once then [] else [.bounds reps]

/-- The signs of a text.  To be repeated as a whole it has to be a group. -/
def Sign.ofText (text : Bytes) (reps : Reps) : List Sign :=
  if reps = .once then text.map .byte
  else .groupOpen :: (text.map .byte ++ [.groupClose, .bounds reps])

/-- The signs of a leaf.  The end of a word and what is left of it have none. -/
def Leaf.signs (reps : Reps) : Leaf → List Sign
  | byte b => .byte b :: reps.signs
  | set _ => .choice :: reps.signs
  | literal text _ => Sign.ofText text reps
  | memberOf _ => .choice :: reps.signs
  | wordEnd => reps.signs
  | remainder => reps.signs

namespace Node

mutual

/-- The signs of a node. -/
def signs : Node → List Sign
  | leaf content reps => content.signs reps
  | group _ branches reps => .groupOpen :: (signsOfBranches branches ++ .groupClose :: reps.signs)

/-- The signs of a chain, from left to right. -/
def signsOfChain : List Node → List Sign
  | [] => []
  | n :: ns => n.signs ++ signsOfChain ns

/-- The signs of a branch. -/
def signsOfBranch : Branch Node → List Sign
  | ⟨nodes, _⟩ => signsOfChain nodes

/-- The signs of some branches, from left to right. -/
def signsOfBranches : List (Branch Node) → List Sign
  | [] => []
  | b :: bs => signsOfBranch b ++ signsOfBranches bs

end

theorem signsOfChain_append (nodes nodes' : List Node) :
  signsOfChain (nodes ++ nodes') = signsOfChain nodes ++ signsOfChain nodes'
  := by
  induction nodes with
  | nil => rfl
  | cons n ns ih => rw [List.cons_append, signsOfChain, signsOfChain, ih, List.append_assoc]

theorem signsOfChain_singleton (n : Node) :
  signsOfChain [n] = n.signs
  := by
  rw [signsOfChain, signsOfChain, List.append_nil]

/-- A text is the bytes of it. -/
theorem signs_ofText (text : Bytes) :
  (ofText text).signs = text.map .byte
  := by
  match text with
  | [] => rfl
  | [b] => rfl
  | b :: c :: text => rfl

theorem signsOfBranches_concat (branches : List (Branch Node)) (nodes : List Node)
    (replacement : Option Bytes) :
  signsOfBranches (branches ++ [⟨nodes, replacement⟩]) =
    signsOfBranches branches ++ signsOfChain nodes
  := by
  induction branches with
  | nil => exact List.append_nil _
  | cons b bs ih => rw [List.cons_append, signsOfBranches, signsOfBranches, ih, List.append_assoc]

end Node

namespace Source

open Node

/-! ### The signs of bytes -/

/-- The sign that a byte of a source is, if it is one. -/
def Role.signs (b : UInt8) : Role → List Sign
  | branchBegin => if b = Mark.groupOpen then [.groupOpen] else []
  | branchEnd => if b = Mark.groupClose then [.groupClose] else []
  | itemBegin => [.choice]
  | quantifier reps => reps.signs
  | escaped => [.byte b]
  | plain => [.byte b]
  | _ => []

/-- The signs among bytes with the given roles. -/
def signsIn : Bytes → List Role → List Sign
  | b :: s, role :: roles => role.signs b ++ signsIn s roles
  | _, _ => []

/-- The signs in a source. -/
def signsOf (source : Bytes) : List Sign := signsIn source (roles source)

section Bytes

variable {vacant vacant' inGroup : Bool} {total : Nat} {b : UInt8} {s t rest : Bytes}
  {roles roles' : List Role}

@[simp]
theorem signsIn_nil (s : Bytes) :
  signsIn s [] = []
  := by
  cases s with
  | nil => rfl
  | cons b s => rfl

theorem signsIn_append (h : Roled vacant s roles t vacant') :
  signsIn s (roles ++ roles') = signsIn s roles ++ signsIn t roles'
  := by
  induction h with
  | nil => rw [signsIn_nil, List.nil_append, List.nil_append]
  | cons _ _ ih => rw [List.cons_append, signsIn, signsIn, ih, List.append_assoc]

theorem signsIn_taken {role : Role} (h : ∀ b, role.signs b = []) (s t : Bytes) :
  signsIn s (taken role s t) = []
  := by
  rw [taken]
  generalize s.length - t.length = n
  induction n generalizing s with
  | zero => apply signsIn_nil
  | succ n ih =>
      cases s with
      | nil => rfl
      | cons b s => rw [List.replicate_succ, signsIn, h, ih, List.nil_append]

/-- A quantifier is the sign of its bounds. -/
theorem signsIn_quantifierRoles (total : Nat) (s : Bytes) :
  signsIn s (quantifierRoles s) = (quantifier total s).value.signs
  := by
  rw [quantifierRoles, quantifier]
  cases hs : quantifier? s with
  | none => apply signsIn_nil
  | some found =>
      cases s with
      | nil => cases hs
      | cons b s =>
          dsimp only
          rw [signsIn, List.tail_cons, signsIn_taken fun _ => rfl, List.append_nil]
          rfl

theorem signsIn_textByte (total : Nat) (b : UInt8) (rest : Bytes) :
  signsIn (b :: rest) (textByteRoles b rest) = [.byte (textByte total b rest).value]
  := by
  rw [textByteRoles, textByte.eq_def]
  by_cases hescape : b = Mark.escape
  · rw [if_pos hescape]
    cases rest with
    | nil =>
        rw [if_neg fun h => h.2 rfl]
        rfl
    | cons c rest =>
        rw [if_pos ⟨hescape, List.cons_ne_nil c rest⟩, signsIn, signsIn, signsIn_nil]
        rfl
  · rw [if_neg hescape, if_neg fun h => hescape h.1, signsIn, signsIn_nil]
    rfl

theorem signsIn_moreText (total : Nat) (inGroup : Bool) (s : Bytes) :
  signsIn s (moreTextRoles total inGroup s) = (moreText total inGroup s).value.map .byte
  := by
  fun_induction moreText total inGroup s with
  | case1 =>
      rw [moreTextRoles]
      rfl
  | case2 b rest h =>
      rw [moreTextRoles, if_pos h]
      rfl
  | case3 b rest h first more ih =>
      obtain ⟨hb, hstarts⟩ := not_begins_of_not_ends h
      rw [moreTextRoles, if_neg h,
        signsIn_append (roled_textByte total hb (fun _ => hstarts : Settled false (b :: rest))),
        ih, signsIn_textByte total]
      rfl

/-- A run of text is the bytes that it was read as. -/
theorem signsIn_text (hb : Mark.beginsItem b = false) (h : Settled vacant (b :: rest)) :
  signsIn (b :: rest) (textRoles total inGroup b rest) =
    (text total inGroup b rest).value.map .byte
  := by
  rw [textRoles, signsIn_append (roled_textByte total hb h), signsIn_textByte total,
    signsIn_moreText]
  rfl

/-- In an item that begins with a mark of its own there is a choice, and its bounds. -/
theorem signsIn_itemBegin {role : Role} (hrole : role.isVacant = false)
    (hsuits : ∀ b rest, role.Suits false b rest) (hsigns : ∀ b, role.signs b = [])
    (b : UInt8) {t : Bytes} (ht : t <:+ rest) (total : Nat) :
  signsIn (b :: rest) (.itemBegin :: (taken role rest t ++ quantifierRoles t)) =
    .choice :: (quantifier total t).value.signs
  := by
  obtain ⟨front, rfl⟩ := ht
  have htaken := roled_taken hrole front (fun b _ rest => hsuits b rest) t
  rw [signsIn, signsIn_append htaken, signsIn_taken hsigns, signsIn_quantifierRoles total]
  rfl

end Bytes

/-! ### The signs of items -/

/-- The signs of what an item is. -/
def Item.signs : Item → List Sign
  | groupOpen => [.groupOpen]
  | branchEnd _ => []
  | groupClose _ reps => .groupClose :: reps.signs
  | cutOff _ => [.groupClose]
  | reference _ reps => .choice :: reps.signs
  | .nodes ns => signsOfChain ns

section Items

variable {vacant inGroup : Bool} {total : Nat} {b : UInt8} {rest : Bytes}

/-- The nodes of a run of text are its bytes, with the bounds behind the last of them. -/
theorem signsOfChain_textNodes (total : Nat) (inGroup : Bool) (b : UInt8) (rest : Bytes) :
  signsOfChain (textNodes total inGroup b rest).value =
    (text total inGroup b rest).value.map .byte ++
      (quantifier total (text total inGroup b rest).rest).value.signs
  := by
  have hne : (text total inGroup b rest).value ≠ [] := List.cons_ne_nil _ _
  rw [textNodes]
  generalize text total inGroup b rest = run at hne ⊢
  obtain ⟨value, rest', warnings⟩ := run
  dsimp only at hne ⊢
  split
  · have hlast : value.drop (value.length - 1) = [value.getLast hne] :=
      List.drop_length_sub_one hne
    have hbytes : value.map Sign.byte =
        value.dropLast.map .byte ++ [.byte (value.getLast hne)] := by
      conv_lhs => rw [← List.dropLast_append_getLast hne]
      rw [List.map_append, List.map_singleton]
    rw [signsOfChain, signs_ofText, signsOfChain_singleton, hlast, hbytes, List.append_assoc]
    rfl
  · next hnot =>
    rw [signsOfChain_singleton]
    by_cases hone : 1 < value.length
    · have hstarts : startsQuantifier rest' = false := by
        simpa only [hone, decide_true, Bool.true_and, Bool.not_eq_true] using hnot
      rw [quantifier_of_not_starts hstarts, ofText_withReps_once, signs_ofText]
      exact (List.append_nil _).symm
    · obtain ⟨c, rfl⟩ : ∃ c, value = [c] := by
        apply List.length_eq_one_iff.mp
        have hpos := List.length_pos_of_ne_nil hne
        omega
      rfl

/-- A branch that ends is no sign, but the group is that ends with it. -/
theorem signs_branchEnd (hb : Mark.endsBranch b = true) :
  (branchEnd total b rest).value.signs =
    signsIn (b :: rest) (branchEndRoles total b rest) ++
      List.replicate (branchEnd total b rest).value.closers.length .groupClose
  := by
  obtain ⟨vacant, hfront⟩ := roled_replacement false total b rest
  have hnone : ∀ rest', signsIn (b :: rest) (replacementRoles b rest rest') = [] := by
    intro rest'
    rw [replacementRoles]
    split
    · next hreplace =>
      rw [signsIn, signsIn_taken fun _ => rfl, hreplace]
      rfl
    · apply signsIn_nil
  have hends := ends_of_replacement total rest hb
  rw [branchEndRoles]
  generalize hreplaced : replacement total Mark.endsBranchReplacement (b :: rest) = replaced
    at hfront hends
  rw [signsIn_append hfront, hnone, List.nil_append]
  cases hrest : replaced.rest with
  | nil =>
      rw [branchEnd_of_nil hreplaced hrest]
      rfl
  | cons d t =>
      rw [hrest] at hends
      by_cases hd : d = Mark.comma
      · rw [branchEnd_of_comma hreplaced (hd ▸ hrest)]
        dsimp only
        rw [if_pos hd, signsIn, signsIn_nil, hd]
        rfl
      · rw [branchEnd_of_cons hreplaced hrest hd]
        dsimp only
        rw [if_neg hd, signsIn, signsIn_quantifierRoles total, (hends d rfl).resolve_left hd]
        exact (List.append_nil _).symm

/-- The signs of an item are those of its bytes, and the end of a group if the item is cut off. -/
theorem signs_item (total : Nat) (inGroup : Bool) (h : Settled vacant (b :: rest)) :
  (item total inGroup b rest).value.signs =
    signsIn (b :: rest) (itemRoles total inGroup b rest) ++
      List.replicate (item total inGroup b rest).value.closers.length .groupClose
  := by
  rcases item_cases inGroup b with hb | rfl | rfl | rfl | rfl | hb
  · rw [item_end rest hb, itemRoles, if_pos hb]
    exact signs_branchEnd ((Bool.and_eq_true _ _).mp hb).2
  · rw [item_groupOpen, itemRoles_groupOpen, signsIn, signsIn_nil]
    rfl
  · rw [item_classOpen, itemRoles_classOpen]
    dsimp only
    rw [signsIn_itemBegin (rfl : Role.inReference.isVacant = false) (fun _ _ => trivial) (fun _ => rfl) _
      (suffix_reference _ _ rest) total]
    exact (List.append_nil _).symm
  · rw [item_setOpen, itemRoles_setOpen]
    dsimp only
    rw [signsIn_itemBegin (rfl : Role.inSet.isVacant = false) (fun _ _ => trivial) (fun _ => rfl) _
      (suffix_set _ _ rest) total]
    exact (signsOfChain_singleton _).trans (List.append_nil _).symm
  · rw [item_wildcard, itemRoles_wildcard]
    dsimp only
    rw [signsIn, signsIn_quantifierRoles total]
    exact (signsOfChain_singleton _).trans (List.append_nil _).symm
  · have hmore := roled_text total hb h
    rw [item_text rest hb, itemRoles_text total rest hb, signsIn_append hmore,
      signsIn_text hb.2 h, signsIn_quantifierRoles total]
    exact (signsOfChain_textNodes total inGroup b rest).trans (List.append_nil _).symm

end Items

/-! ### Readers -/

/-- The signs in the chains around the one that is being read, and in the groups that are open. -/
def signsAround : List OpenGroup → List Sign
  | [] => []
  | g :: outer =>
    signsAround outer ++ (signsOfChain g.before ++ .groupOpen :: signsOfBranches g.branches)

namespace Reader

/-- The signs that a reader has met, from left to right. -/
def signs (r : Reader) : List Sign := signsAround r.opened ++ signsOfChain r.chain

theorem signs_openGroup (r : Reader) (pos : Nat) :
  (r.openGroup pos).signs = r.signs ++ [.groupOpen]
  := by
  change signsAround r.opened ++ (signsOfChain r.chain ++ [.groupOpen]) ++ [] = _
  rw [List.append_nil, ← List.append_assoc]
  rfl

theorem signs_endBranch (r : Reader) (replacement : Option Bytes) :
  (r.endBranch replacement).signs = r.signs
  := by
  cases hg : r.opened with
  | nil => rw [r.endBranch_of_nil hg]
  | cons g outer =>
      rw [r.endBranch_of_opened hg, signs, signs, hg]
      change signsAround outer ++ (_ ++ _ :: signsOfBranches (g.branches ++ [_])) ++ [] = _
      rw [signsOfBranches_concat, List.append_nil, signsAround]
      simp only [List.append_assoc, List.cons_append]

/-- The end of a branch and of its group. -/
theorem signs_closeGroup {r : Reader} (hr : r.opened ≠ []) (replacement : Option Bytes)
    (reps : Reps) :
  ((r.endBranch replacement).closeGroup reps).signs = r.signs ++ .groupClose :: reps.signs
  := by
  obtain ⟨g, outer, hg⟩ := List.exists_cons_of_ne_nil hr
  rw [← r.signs_endBranch replacement, r.endBranch_of_opened hg]
  change signsAround outer ++ signsOfChain (g.before ++ [.group g.number _ reps]) =
    signsAround outer ++ (signsOfChain g.before ++ _) ++ [] ++ _
  rw [signsOfChain_append, signsOfChain_singleton, Node.signs, List.append_nil]
  simp only [List.append_assoc, List.cons_append]

theorem signs_abandonGroup {r : Reader} (hr : r.opened ≠ []) (replacement : Option Bytes) :
  (r.endBranch replacement).abandonGroup.signs = r.signs ++ [.groupClose]
  := by
  obtain ⟨g, outer, hg⟩ := List.exists_cons_of_ne_nil hr
  rw [r.abandonGroup_of_opened hg]
  exact signs_closeGroup hr replacement .once

/-- An item adds its signs. -/
theorem signs_take {r : Reader} {i : Item} (hr : i.endsBranch = true → r.opened ≠ []) (pos : Nat) :
  (r.take pos i).signs = r.signs ++ i.signs
  := by
  cases i with
  | groupOpen => apply signs_openGroup
  | branchEnd replacement => exact (r.signs_endBranch replacement).trans (List.append_nil _).symm
  | groupClose replacement reps => exact signs_closeGroup (hr rfl) replacement reps
  | cutOff replacement => exact signs_abandonGroup (hr rfl) replacement
  | reference ref reps =>
      change _ ++ signsOfChain (r.chain ++ [.leaf (.memberOf (r.lexicon.idOf ref.name)) reps]) = _
      rw [signsOfChain_append, signsOfChain_singleton, ← List.append_assoc]
      rfl
  | nodes ns =>
      change _ ++ signsOfChain (r.chain ++ ns) = _
      rw [signsOfChain_append, ← List.append_assoc]
      rfl

/-- The groups that are open end where the pattern does. -/
theorem signs_finish (r : Reader) :
  signsOfChain r.finish.chain = r.signs ++ List.replicate r.opened.length .groupClose
  := by
  generalize hg : r.opened = opened
  induction opened generalizing r with
  | nil =>
      rw [r.finish_of_nil hg, signs, hg]
      exact (List.append_nil _).symm
  | cons g outer ih =>
      obtain ⟨hopened, hfinish⟩ := finish_of_opened hg
      have hr : r.opened ≠ [] := hg ▸ List.cons_ne_nil g outer
      rw [hfinish, ih _ hopened, signs_abandonGroup hr, List.append_assoc, List.length_cons,
        List.replicate_succ]
      rfl

/-- The signs of the pattern that is read are those that were met before, those of the bytes that
are left, and the ends of the groups that are not closed. -/
theorem exists_signs_read {vacant : Bool} {s : Bytes} (hs : Settled vacant s) (total : Nat)
    (r : Reader) :
  ∃ unclosed, signsOfChain (r.read total s).chain =
    r.signs ++ signsIn s (rolesFrom total r.opened.length s) ++
      List.replicate unclosed .groupClose
  := by
  fun_induction read total r s generalizing vacant with
  | case1 r =>
      use r.opened.length
      rw [signs_finish, rolesFrom, signsIn_nil, List.append_nil]
  | @case2 r b rest scan ih =>
      obtain ⟨vacant', hroled, hsettled⟩ := roled_item total r.inGroup hs
      obtain ⟨unclosed, hmore⟩ := ih hsettled
      have hopened : scan.value.endsBranch = true → (r.warn scan.warnings).opened ≠ [] := by
        intro hends hnil
        have hin := inGroup_of_item rest hends
        rw [inGroup, show r.opened = [] from hnil] at hin
        cases hin
      have hitem := signs_item total r.inGroup hs
      rw [rolesFrom_reader, signsIn_append hroled]
      by_cases hcut : scan.value.closers = []
      · use unclosed
        have hsigns : scan.value.signs =
            signsIn (b :: rest) (itemRoles total r.inGroup b rest) := by
          rw [hitem, show (item total r.inGroup b rest).value.closers = [] from hcut]
          exact List.append_nil _
        rw [hmore, signs_take hopened, hsigns]
        simp only [List.append_assoc]
        rfl
      -- An item that is cut off is the last one, so nothing follows the end of its group.
      · use scan.value.closers.length + unclosed
        have hrest : scan.rest = [] := rest_of_item rfl (List.append_ne_nil_of_right_ne_nil _ hcut)
        have hnone : ∀ roles, signsIn scan.rest roles = [] := by
          intro roles
          rw [hrest]
          rfl
        have hsigns : scan.value.signs = signsIn (b :: rest) (itemRoles total r.inGroup b rest) ++
            List.replicate scan.value.closers.length .groupClose := hitem
        rw [hmore, signs_take hopened, hnone, hsigns, ← List.replicate_append_replicate]
        simp only [List.append_nil, List.append_assoc]
        rfl

end Reader

end Source

/-! ### Counts -/

namespace Reading

/-- From left to right a pattern is the signs in its source, and then the ends of the groups that
are not closed there. -/
theorem exists_signs_ofSource (source : Bytes) (lexicon : Lexicon) :
  ∃ unclosed, Node.signsOfChain (ofSource source lexicon).pattern.nodes =
    Source.signsOf source ++ List.replicate unclosed .groupClose
  := Source.Reader.exists_signs_read (Source.settled_vacant source) source.length (.start lexicon)

/-- A brace that is not escaped and stands outside of sets, references and replacements begins
a quantifier where a count stands behind it and something in front of it, and otherwise it is a byte
of a text. -/
theorem role_of_countOpen {source : Bytes} {pos : Nat} {s : Bytes}
    (hpos : source.drop pos = Mark.countOpen :: s) :
  ∃ role, (Source.roles source)[pos]? = some role ∧
    (role.isOpen = true →
      (∀ reps rest, Source.Counts s reps rest → Source.unpreceded source pos = false →
        role = .quantifier reps) ∧
      (Source.unpreceded source pos = true ∨ (∀ reps rest, ¬ Source.Counts s reps rest) →
        role = .plain))
  := by
  obtain ⟨role, hrole, hsuits⟩ := Source.exists_role hpos
  refine ⟨role, hrole, ?_⟩
  intro hopen
  rcases hsuits.plain_or_quantifier hopen (by decide) with rfl | ⟨reps, rfl⟩
  · refine ⟨?_, fun _ => rfl⟩
    intro reps rest hcounts hvacant
    have hstarts := hsuits.2 hvacant
    rw [Source.startsQuantifier, Source.quantifier?_countOpen,
      Source.count?_eq_some_iff.mpr hcounts] at hstarts
    cases hstarts
  · obtain ⟨hvacant, t, hcount⟩ := hsuits
    have hcounts : Source.Counts s reps t := Source.count?_eq_some_iff.mp hcount
    constructor
    · intro reps' rest' hcounts' _
      have heq := hcount.symm.trans (Source.count?_eq_some_iff.mpr hcounts')
      rw [(Prod.mk.inj (Option.some.inj heq)).1]
    · rintro (hvacant' | hnone)
      · exact absurd (hvacant.symm.trans hvacant') Bool.false_ne_true
      · exact absurd hcounts (hnone reps t)

/-- Counts are read as they are defined, and nothing else is.  Where a count may stand in a source
it gives the bounds of what is in front of it, and the brace of anything else is a byte of a text.
No other byte gives bounds to a node. -/
theorem counts_ofSource (source : Bytes) (lexicon : Lexicon) :
  (∀ s reps rest, Source.quantifier? (Mark.countOpen :: s) = some (reps, rest) ↔
    Source.Counts s reps rest) ∧
  (∃ unclosed, Node.signsOfChain (ofSource source lexicon).pattern.nodes =
    Source.signsOf source ++ List.replicate unclosed .groupClose) ∧
  ∀ pos s, source.drop pos = Mark.countOpen :: s →
    ∃ role, (Source.roles source)[pos]? = some role ∧
      (role.isOpen = true →
        (∀ reps rest, Source.Counts s reps rest → Source.unpreceded source pos = false →
          role = .quantifier reps) ∧
        (Source.unpreceded source pos = true ∨ (∀ reps rest, ¬ Source.Counts s reps rest) →
          role = .plain))
  := ⟨fun _ _ _ => Source.count?_eq_some_iff, exists_signs_ofSource source lexicon,
    fun _ _ hpos => role_of_countOpen hpos⟩

end Reading

end Respell
