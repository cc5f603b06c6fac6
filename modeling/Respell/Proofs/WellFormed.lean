import Respell.Proofs.Pattern.WellFormed
import Respell.Proofs.Source.Leaves
import Respell.Proofs.Source.PrintedItems
import Respell.Proofs.Source.Reader
import Respell.Proofs.Source.Rest

/-!
# Whatever is read is well formed

However malformed a source is, the pattern that is read from it is well formed among the classes
that exist then.  Each item keeps what is being read well formed.  That no literal follows another
one is seen from the bytes: a run of text goes on up to a byte with which no text begins, or up to
a quantifier, which goes with the last byte of the run.
-/

namespace Respell

namespace Source

open Node

/-! ### Runs of text -/

/-- A text is a byte or a literal. -/
theorem ofText_cases {text : Bytes} (h : text ≠ []) :
  (∃ b, text = [b] ∧ ofText text = .leaf (.byte b) .once) ∨
    2 ≤ text.length ∧ ofText text = .leaf (.literal text text) .once
  := by
  match text with
  | [] => contradiction
  | [b] => exact .inl ⟨b, rfl, rfl⟩
  | b :: c :: text => exact .inr ⟨Nat.le_add_left 2 text.length, rfl⟩

/-- Text does not go on with this byte. -/
def Bars (inGroup : Bool) (s : Bytes) : Prop := ∀ b ∈ s.head?, ¬ BeginsText inGroup b

theorem halts_moreText (total : Nat) (inGroup : Bool) (s : Bytes) :
  Halts inGroup (moreText total inGroup s).rest
  := by
  fun_induction moreText total inGroup s with
  | case1 => exact .inl rfl
  | case2 b rest h => exact .inr h
  | case3 b rest h first more ih => exact ih

/-- A run of text that no quantifier ends is ended by a byte that bars text. -/
theorem bars_of_halts {inGroup : Bool} {s : Bytes} (h : Halts inGroup s)
    (hstarts : startsQuantifier s = false) :
  Bars inGroup s
  := by
  rintro b hb ⟨hend, hbegins⟩
  rcases h with rfl | h
  · cases hb
  · rw [endsRun, hstarts, Bool.or_false, Option.mem_def.mp hb, Option.any_some, hbegins, hend] at h
    cases h

/-- The nodes of an item that begins with the byte `b`, in front of `rest`: at each end there is a
literal only if text begins or is barred there. -/
structure Fits (inGroup : Bool) (b : UInt8) (rest : Bytes) (nodes : List Node) : Prop where
  wellFormed : ∀ l, ChainWellFormed l nodes
  numbers : groupNumbersOfChain nodes = []
  nonempty : nodes ≠ []
  first : ∀ n ∈ nodes.head?, n.isLiteral = true → BeginsText inGroup b
  last : ∀ n ∈ nodes.getLast?, n.isLiteral = true → Bars inGroup rest

section Fits

variable {inGroup : Bool} {b : UInt8} {rest : Bytes}

/-- A leaf that is no literal fits behind whatever fits in front of some other bytes. -/
theorem Fits.concat {rest' : Bytes} {nodes : List Node} (h : Fits inGroup b rest' nodes)
    {content : Leaf} {reps : Reps} (hleaf : ∀ l, content.WellFormed l reps)
    (hliteral : (leaf content reps).isLiteral = false) :
  Fits inGroup b rest (nodes ++ [leaf content reps])
  where
  wellFormed l := (h.wellFormed l).concat (.leaf reps.least_le (hleaf l)) hliteral
  numbers := by
    rw [groupNumbersOfChain_append, h.numbers]
    rfl
  nonempty := List.append_ne_nil_of_left_ne_nil h.nonempty _
  first := by
    rw [List.head?_append_of_ne_nil nodes h.nonempty]
    apply h.first
  last := by
    intro n hn htrue
    rw [List.getLast?_concat, Option.mem_some_iff] at hn
    rw [← hn, hliteral] at htrue
    cases htrue

theorem fits_leaf {content : Leaf} {reps : Reps} (hleaf : ∀ l, content.WellFormed l reps)
    (hliteral : (leaf content reps).isLiteral = false) :
  Fits inGroup b rest [leaf content reps]
  where
  wellFormed l := chainWellFormed_nil.concat (.leaf reps.least_le (hleaf l)) hliteral
  numbers := rfl
  nonempty := List.cons_ne_nil _ _
  first := by
    intro n hn htrue
    rw [List.head?_cons, Option.mem_some_iff] at hn
    rw [← hn, hliteral] at htrue
    cases htrue
  last := by
    intro n hn htrue
    rw [List.getLast?_singleton, Option.mem_some_iff] at hn
    rw [← hn, hliteral] at htrue
    cases htrue

/-- A text fits if it has one byte, or if it is not repeated and no more text follows. -/
theorem fits_text {text : Bytes} (h : text ≠ []) {reps : Reps} (hb : BeginsText inGroup b)
    (hlong : 2 ≤ text.length → reps = .once ∧ Bars inGroup rest) :
  Fits inGroup b rest [(ofText text).withReps reps]
  := by
  obtain ⟨c, -, htext⟩ | ⟨hlength, htext⟩ := ofText_cases h
  · rw [htext]
    exact fits_leaf (fun l => .byte c reps) rfl
  · obtain ⟨rfl, hbars⟩ := hlong hlength
    have hliteral : ∀ l, (leaf (.literal text text) .once).WellFormed l :=
      fun l => .leaf Reps.once.least_le (.literal hlength)
    rw [htext]
    constructor
    · exact fun l => ⟨.singleton _, List.forall_mem_singleton.mpr (hliteral l)⟩
    · rfl
    · apply List.cons_ne_nil
    · exact fun n _ _ => hb
    · exact fun n _ _ => hbars

theorem fits_textNodes (total : Nat) (hb : BeginsText inGroup b) :
  Fits inGroup b (textNodes total inGroup b rest).rest (textNodes total inGroup b rest).value
  := by
  have hrun : (text total inGroup b rest).value ≠ [] := List.cons_ne_nil _ _
  have hhalts : Halts inGroup (text total inGroup b rest).rest := halts_moreText _ _ _
  simp only [textNodes]
  generalize text total inGroup b rest = run at hrun hhalts ⊢
  split
  · next h =>
    obtain ⟨hlong, -⟩ := (Bool.and_eq_true _ _).mp h
    have hlong := of_decide_eq_true hlong
    -- The quantifier repeats the last byte only, so the rest of the run is a node of its own.
    obtain ⟨c, hlast⟩ : ∃ c, run.value.drop (run.value.length - 1) = [c] := by
      apply List.length_eq_one_iff.mp
      rw [List.length_drop]
      omega
    have hfront : run.value.dropLast ≠ [] := by
      intro hnil
      have hlength := congrArg List.length hnil
      rw [List.length_dropLast, List.length_nil] at hlength
      omega
    have hfits : Fits inGroup b [] [(ofText run.value.dropLast).withReps .once] :=
      fits_text hfront hb fun _ => ⟨rfl, bars_of_halts (.inl rfl) rfl⟩
    rw [ofText_withReps_once] at hfits
    rw [hlast]
    exact hfits.concat (fun l => .byte c _) rfl
  · next h =>
    apply fits_text hrun hb
    intro hlong
    have hstarts : startsQuantifier run.rest = false := by
      rw [← Bool.not_eq_true]
      exact fun hstarts => h ((Bool.and_eq_true _ _).mpr ⟨decide_eq_true hlong, hstarts⟩)
    rw [quantifier_of_not_starts hstarts]
    exact ⟨rfl, bars_of_halts hhalts hstarts⟩

/-- The nodes of an item fit where it stands. -/
theorem fits_item {total : Nat} {nodes : List Node}
    (h : (item total inGroup b rest).value = .nodes nodes) :
  Fits inGroup b (item total inGroup b rest).rest nodes
  := by
  rcases item_cases inGroup b with hb | rfl | rfl | rfl | rfl | hb
  · rw [item_end rest hb, branchEnd] at h
    dsimp only at h
    split at h
    · cases h
    · split at h
      · cases h
      · cases h
  · rw [item_groupOpen] at h
    cases h
  · rw [item_classOpen] at h
    cases h
  · rw [item_setOpen] at h ⊢
    obtain rfl := Item.nodes.inj h
    exact fits_leaf (fun l => .set (ByteSet.caseBlind_ofItems _ _) _) rfl
  · rw [item_wildcard] at h ⊢
    obtain rfl := Item.nodes.inj h
    exact fits_leaf (fun l => .set ByteSet.caseBlind_full _) rfl
  · rw [item_text rest hb] at h ⊢
    obtain rfl := Item.nodes.inj h
    exact fits_textNodes total hb

end Fits

/-! ### Readers -/

/-- The numbers of the groups in the chains around the one that is being read, and of the groups
that are open themselves. -/
def numbersAround : List OpenGroup → List Nat
  | [] => []
  | g :: outer =>
    numbersAround outer ++
      (groupNumbersOfChain g.before ++ g.number :: groupNumbersOfBranches g.branches)

/-- What a reader has met is well formed, and the groups are numbered in the order in which they
begin. -/
structure Reader.WellFormed (r : Reader) : Prop where
  chain : ChainWellFormed r.lexicon r.chain
  before : ∀ g ∈ r.opened, ChainWellFormed r.lexicon g.before
  branches : ∀ g ∈ r.opened, ∀ b ∈ g.branches, ChainWellFormed r.lexicon b.nodes
  numbers : numbersAround r.opened ++ groupNumbersOfChain r.chain = List.range' 1 r.groups

namespace Reader

variable {r : Reader}

theorem wellFormed_start (lexicon : Lexicon) :
  (start lexicon).WellFormed
  where
  chain := chainWellFormed_nil
  before := List.forall_mem_nil _
  branches := List.forall_mem_nil _
  numbers := rfl

theorem WellFormed.withWarnings (h : r.WellFormed) (ws : List Warning) :
  (r.withWarnings ws).WellFormed
  := ⟨h.chain, h.before, h.branches, h.numbers⟩

theorem WellFormed.append (h : r.WellFormed) {nodes : List Node}
    (hnodes : ChainWellFormed r.lexicon nodes) (hnumbers : groupNumbersOfChain nodes = [])
    (hbetween : ∀ m ∈ r.chain.getLast?, ∀ n ∈ nodes.head?,
      m.isLiteral = true → n.isLiteral = false) :
  (r.append nodes).WellFormed
  where
  chain := h.chain.append hnodes hbetween
  before := h.before
  branches := h.branches
  numbers := by
    change numbersAround r.opened ++ groupNumbersOfChain (r.chain ++ nodes) = _
    rw [groupNumbersOfChain_append, hnumbers, List.append_nil]
    exact h.numbers

theorem WellFormed.openGroup (h : r.WellFormed) (pos : Nat) :
  (r.openGroup pos).WellFormed
  where
  chain := chainWellFormed_nil
  before := List.forall_mem_cons.mpr ⟨h.chain, h.before⟩
  branches := List.forall_mem_cons.mpr ⟨List.forall_mem_nil _, h.branches⟩
  numbers := by
    change numbersAround r.opened ++ (groupNumbersOfChain r.chain ++ [r.groups + 1]) ++ [] =
      List.range' 1 (r.groups + 1)
    rw [List.append_nil, ← List.append_assoc, h.numbers, List.range'_1_concat, Nat.add_comm 1]

/-- The branches of the innermost group with the chain as one more. -/
theorem WellFormed.moreBranches (h : r.WellFormed) {g : OpenGroup} {outer : List OpenGroup}
    (hg : r.opened = g :: outer) (replacement : Option Bytes) :
  ∀ b ∈ g.branches ++ [⟨r.chain, replacement⟩], ChainWellFormed r.lexicon b.nodes
  := by
  intro b hb
  rcases List.mem_append.mp hb with hb | hb
  · apply h.branches g _ b hb
    rw [hg]
    apply List.mem_cons_self
  · rw [List.mem_singleton.mp hb]
    apply h.chain

theorem WellFormed.endBranch (h : r.WellFormed) (replacement : Option Bytes) :
  (r.endBranch replacement).WellFormed
  := by
  cases hg : r.opened with
  | nil =>
      rw [r.endBranch_of_nil hg]
      exact h
  | cons g outer =>
      have hbefore := h.before
      have hbranches := h.branches
      have hnumbers := h.numbers
      rw [hg] at hbefore hbranches hnumbers
      rw [r.endBranch_of_opened hg]
      constructor
      · apply chainWellFormed_nil
      · exact List.forall_mem_cons.mpr (List.forall_mem_cons.mp hbefore)
      · exact List.forall_mem_cons.mpr
          ⟨h.moreBranches hg replacement, (List.forall_mem_cons.mp hbranches).2⟩
      · dsimp only [numbersAround] at hnumbers ⊢
        rw [groupNumbersOfBranches_concat, ← hnumbers]
        simp only [List.append_assoc, List.cons_append, groupNumbersOfChain, List.append_nil]

/-- The end of a branch and of its group. -/
theorem WellFormed.closeGroup (h : r.WellFormed) (replacement : Option Bytes) (reps : Reps) :
  ((r.endBranch replacement).closeGroup reps).WellFormed
  := by
  cases hg : r.opened with
  | nil =>
      rw [r.endBranch_of_nil hg, r.closeGroup_of_nil hg]
      exact h
  | cons g outer =>
      have hbefore := h.before
      have hbranches := h.branches
      have hnumbers := h.numbers
      rw [hg] at hbefore hbranches hnumbers
      obtain ⟨hbefore, hbefores⟩ := List.forall_mem_cons.mp hbefore
      have hmore := h.moreBranches hg replacement
      have hgroup : (Node.group g.number (g.branches ++ [⟨r.chain, replacement⟩]) reps).WellFormed
          r.lexicon := by
        apply Node.WellFormed.group reps.least_le
        · exact List.append_ne_nil_of_right_ne_nil _ (List.cons_ne_nil _ _)
        · exact fun b hb => (hmore b hb).apart
        · exact fun b hb => (hmore b hb).each
      rw [r.endBranch_of_opened hg]
      constructor
      · exact hbefore.concat hgroup rfl
      · exact hbefores
      · exact (List.forall_mem_cons.mp hbranches).2
      · change numbersAround outer ++ groupNumbersOfChain (g.before ++ [.group g.number _ reps]) = _
        rw [groupNumbersOfChain_append]
        apply Eq.trans _ hnumbers
        dsimp only [numbersAround, groupNumbersOfChain, groupNumbers]
        rw [groupNumbersOfBranches_concat]
        simp only [List.append_assoc, List.cons_append, List.append_nil]

theorem WellFormed.abandonGroup (h : r.WellFormed) (replacement : Option Bytes) :
  (r.endBranch replacement).abandonGroup.WellFormed
  := by
  cases hg : r.opened with
  | nil =>
      rw [r.endBranch_of_nil hg, r.abandonGroup_of_nil hg]
      exact h
  | cons g outer =>
      rw [r.abandonGroup_of_opened hg]
      exact (h.closeGroup replacement .once).withWarnings _

theorem WellFormed.refer (h : r.WellFormed) (ref : Reference) (reps : Reps) :
  (r.refer ref reps).WellFormed
  := by
  have hdeclare := r.lexicon.names_prefix_declare ref
  have hnames := (r.lexicon.names_prefix_intern ref.name).trans hdeclare
  obtain ⟨c, hc, -⟩ := Lexicon.exists_class_of_idOf?
    (Lexicon.idOf?_of_more hdeclare (r.lexicon.idOf?_intern ref.name))
  constructor
  · apply (h.chain.mono hnames).concat (.leaf reps.least_le (.memberOf hc reps)) rfl
  · exact fun g hg => (h.before g hg).mono hnames
  · exact fun g hg b hb => (h.branches g hg b hb).mono hnames
  · change numbersAround r.opened ++ groupNumbersOfChain (r.chain ++ [.leaf _ reps]) = _
    rw [groupNumbersOfChain_append]
    exact (congrArg _ (List.append_nil _)).trans h.numbers

/-- No text begins in front of these bytes if a literal ends the chain. -/
def Barred (r : Reader) (s : Bytes) : Prop :=
  ∀ n ∈ r.chain.getLast?, n.isLiteral = true → Bars r.inGroup s

/-- An item that is taken keeps what a reader has met well formed. -/
theorem WellFormed.take (h : r.WellFormed) {total pos : Nat} {b : UInt8} {rest : Bytes}
    (hbarred : r.Barred (b :: rest)) :
  (r.take pos (item total r.inGroup b rest).value).WellFormed
  := by
  cases hvalue : (item total r.inGroup b rest).value with
  | groupOpen => exact h.openGroup pos
  | branchEnd replacement => exact h.endBranch replacement
  | groupClose replacement reps => exact h.closeGroup replacement reps
  | cutOff replacement => exact h.abandonGroup replacement
  | reference ref reps => exact h.refer ref reps
  | nodes ns =>
      have hfits := fits_item hvalue
      apply h.append (hfits.wellFormed _) hfits.numbers
      intro m hm n hn hliteral
      rw [← Bool.not_eq_true]
      exact fun hliteral' => hbarred m hm hliteral b rfl (hfits.first n hn hliteral')

/-- Behind an item that ends in a literal no text begins. -/
theorem barred_take (r : Reader) (total pos : Nat) (b : UInt8) (rest : Bytes) :
  (r.take pos (item total r.inGroup b rest).value).Barred (item total r.inGroup b rest).rest
  := by
  have hopened : (item total r.inGroup b rest).value.endsBranch = true →
      ∃ g outer, r.opened = g :: outer := by
    intro hends
    have hin := inGroup_of_item rest hends
    rw [inGroup, Bool.not_eq_true', List.isEmpty_eq_false_iff] at hin
    exact List.exists_cons_of_ne_nil hin
  have hlast : ∀ {nodes : List Node} {m n : Node}, n ∈ (nodes ++ [m]).getLast? →
      n.isLiteral = true → m.isLiteral = true := by
    intro nodes m n hn hliteral
    rw [List.getLast?_concat, Option.mem_some_iff] at hn
    rwa [hn]
  intro n hn hliteral
  cases hvalue : (item total r.inGroup b rest).value with
  | groupOpen =>
      rw [hvalue] at hn
      cases hn
  | branchEnd replacement =>
      obtain ⟨g, outer, hg⟩ := hopened (by rw [hvalue]; rfl)
      rw [hvalue, Reader.take, r.endBranch_of_opened hg] at hn
      cases hn
  | groupClose replacement reps =>
      obtain ⟨g, outer, hg⟩ := hopened (by rw [hvalue]; rfl)
      rw [hvalue, Reader.take, r.endBranch_of_opened hg] at hn
      cases hlast hn hliteral
  | cutOff replacement =>
      obtain ⟨g, outer, hg⟩ := hopened (by rw [hvalue]; rfl)
      rw [hvalue, Reader.take, r.abandonGroup_of_opened hg, r.endBranch_of_opened hg] at hn
      cases hlast hn hliteral
  | reference ref reps =>
      rw [hvalue] at hn
      cases hlast hn hliteral
  | nodes ns =>
      have hfits := fits_item hvalue
      rw [hvalue] at hn
      change n ∈ (r.chain ++ ns).getLast? at hn
      rw [List.getLast?_append_of_ne_nil r.chain hfits.nonempty] at hn
      exact hfits.last n hn hliteral

theorem WellFormed.finish (h : r.WellFormed) :
  r.finish.WellFormed ∧ r.finish.opened = []
  := by
  generalize hg : r.opened = opened
  induction opened generalizing r with
  | nil =>
      rw [r.finish_of_nil hg]
      exact ⟨h, hg⟩
  | cons g outer ih =>
      obtain ⟨hopened, hfinish⟩ := finish_of_opened hg
      rw [hfinish]
      exact ih (h.abandonGroup none) hopened

/-- When a pattern was read to its end all is well formed and no group is open. -/
theorem WellFormed.read (h : r.WellFormed) (total : Nat) {s : Bytes} (hbarred : r.Barred s) :
  (r.read total s).WellFormed ∧ (r.read total s).opened = []
  := by
  fun_induction Reader.read total r s with
  | case1 r => exact h.finish
  | case2 r b rest scan ih =>
      apply ih
      · exact (h.withWarnings (r.warnings ++ scan.warnings)).take hbarred
      · exact (r.warn scan.warnings).barred_take total _ b rest

end Reader

end Source

/-- The pattern that is read is well formed among the classes that exist after it was read. -/
theorem Reading.wellFormed_pattern (source : Bytes) (lexicon : Lexicon) :
  (ofSource source lexicon).pattern.WellFormed (ofSource source lexicon).lexicon
  := by
  have hbarred : (Source.Reader.start lexicon).Barred source := fun n hn => nomatch hn
  obtain ⟨h, hopened⟩ := (Source.Reader.wellFormed_start lexicon).read source.length hbarred
  have hnumbers := h.numbers
  rw [hopened] at hnumbers
  exact ⟨h.chain, hnumbers⟩

/-- Every pattern that is read is well formed among the classes that exist after it was read, and
it is the pattern of its chain. -/
theorem Reading.wellFormed_ofSource (source : Bytes) (lexicon : Lexicon) :
  let r := ofSource source lexicon
  r.pattern.WellFormed r.lexicon ∧ Pattern.ofNodes r.pattern.nodes = r.pattern
  := by
  intro r
  have hpattern : r.pattern.WellFormed r.lexicon := wellFormed_pattern source lexicon
  exact ⟨hpattern, hpattern.ofNodes_eq⟩

end Respell
