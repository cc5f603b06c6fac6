import Respell.Proofs.Source.Closing
import Respell.Proofs.Source.Count
import Respell.Proofs.Source.References
import Respell.Proofs.Text.Escape

/-!
# Texts that are taken from a source

From a source come the names of classes, the texts and replacements of members, and the
replacements of branches.  All of them are cut out at ASCII marks.  So if the source is a text then
each of them is one, made of characters of the source in their order, and nothing is lost when it is
decoded.
-/

namespace Respell

/-! ### The replacements in a chain -/

namespace Node

/-- The replacements of the branches of a node, if it is a group. -/
def ownReplacements : Node → List Bytes
  | leaf _ _ => []
  | group _ branches _ => branches.filterMap (·.replacement)

/-- The replacements of all branches in a chain, at any depth. -/
def replacements (nodes : List Node) : List Bytes := (withinChain nodes).flatMap ownReplacements

theorem replacements_append (nodes nodes' : List Node) :
  replacements (nodes ++ nodes') = replacements nodes ++ replacements nodes'
  := by
  rw [replacements, withinChain_append, List.flatMap_append]
  rfl

theorem replacements_leaf (content : Leaf) (reps : Reps) :
  replacements [leaf content reps] = []
  := rfl

theorem mem_replacements_group {number : Nat} {branches : List (Branch Node)} {reps : Reps}
    {t : Bytes} (h : t ∈ replacements [group number branches reps]) :
  ∃ b ∈ branches, b.replacement = some t ∨ t ∈ replacements b.nodes
  := by
  rw [replacements, withinChain, withinChain, within, List.append_nil, List.flatMap_cons,
    List.mem_append] at h
  rcases h with h | h
  · obtain ⟨b, hb, ht⟩ := List.mem_filterMap.mp h
    exact ⟨b, hb, .inl ht⟩
  · obtain ⟨n, hn, ht⟩ := List.mem_flatMap.mp h
    obtain ⟨b, hb, hn⟩ := mem_withinBranches_iff.mp hn
    exact ⟨b, hb, .inr (List.mem_flatMap.mpr ⟨n, hn, ht⟩)⟩

/-- A text has no branches. -/
theorem replacements_ofText (text : Bytes) (reps : Reps) :
  replacements [(ofText text).withReps reps] = []
  := by
  match text with
  | [] => rfl
  | [b] => rfl
  | b :: c :: text => rfl

end Node

namespace Source

open Node Text Utf8

/-! ### Texts in a source -/

/-- The bytes are those of a text that is written in the source behind one of the openings, up to
one of the ends. -/
def TextIn (opens ends : List Char) (source : String) (t : Bytes) : Prop :=
  ∃ text, Writes '%' opens ends source.toList text ∧ t = encode (.ofList text)

/-- The bytes are those of a piece of the source between the opening mark of a reference and the
first mark that ends a name. -/
def NameIn (source : String) (name : Bytes) : Prop :=
  ∃ piece after, Between ['<'] ['>', ':'] piece after source.toList ∧
    (∀ c ∈ piece, c ∉ ['>', ':']) ∧ name = encode (.ofList piece)

/-- The member has a text that is written in the source, and the replacement that is written there
or none. -/
def MemberIn (source : String) (m : Member) : Prop :=
  ∃ text replaced, m = .ofText text replaced ∧ TextIn [':', ','] [',', '>', '|'] source text ∧
    ∀ t ∈ replaced, TextIn ['|'] [',', '>'] source t

variable {source : String} {opens ends : List Char} {stops : UInt8 → Bool} {s : Bytes}

/-- A scan reads a piece of text up to the first byte, outside escapes, at which it stops. -/
theorem exists_piece_textUntil (total : Nat) {ends : Bytes} (hends : ∀ b ∈ ends, stops b = true)
    (s : Bytes) :
  ∃ piece, s = piece ++ (textUntil total stops s).rest ∧
    Unbroken Mark.escape ends (textUntil total stops s).rest piece ∧
    (textUntil total stops s).value = unescape Mark.escape piece
  := by
  fun_induction textUntil total stops s with
  | case1 => exact ⟨[], rfl, trivial, rfl⟩
  | case2 b rest hb => exact ⟨[], rfl, trivial, rfl⟩
  | case3 b rest hb first more ih =>
      have hend : b ∉ ends := fun h => hb (hends b h)
      obtain ⟨piece, hrest, hunbroken, hvalue⟩ := ih
      by_cases hescape : b = Mark.escape
      · subst hescape
        cases rest with
        | nil =>
            -- An escape at the end of the pattern is the last byte of the piece.
            have hmore : more = ⟨[], [], []⟩ := by
              subst more first
              rw [textByte, if_pos rfl, textUntil]
            rw [hmore]
            exact ⟨[Mark.escape], rfl, ⟨hend, fun _ => rfl⟩, rfl⟩
        | cons c rest =>
            refine ⟨Mark.escape :: c :: piece, congrArg (Mark.escape :: c :: ·) hrest, ?_, ?_⟩
            · rw [Unbroken, if_pos rfl]
              exact ⟨hend, hunbroken⟩
            · rw [unescape, if_pos rfl, ← hvalue]
              rfl
      · have hfirst : first = ⟨b, rest, []⟩ := if_neg hescape
        have hpiece : rest = piece ++ more.rest := (congrArg Scan.rest hfirst).symm.trans hrest
        refine ⟨b :: piece, congrArg (b :: ·) hpiece, hunbroken.cons hescape hend, ?_⟩
        rw [unescape_cons_of_ne hescape, ← hvalue]
        exact congrArg (fun scan : Scan UInt8 => scan.value :: more.value) hfirst

variable (hopens : Ascii opens) (hends : Ascii ends)
  (hstops : ∀ b, stops b = true ↔ b ∈ ends.map Char.toUInt8)

include hopens hends hstops

/-- Behind an opening of a source a scan reads what is written there. -/
theorem textIn_textUntil {total : Nat} {a : Char} (ha : a ∈ opens)
    (hs : a.toUInt8 :: s <:+ encode source) :
  TextIn opens ends source (textUntil total stops s).value
  := by
  obtain ⟨before, hsource⟩ := hs
  obtain ⟨piece, hpiece, hunbroken, hvalue⟩ :=
    exists_piece_textUntil total (fun b hb => (hstops b).mpr hb) s
  have hbetween : Between (opens.map Char.toUInt8) (ends.map Char.toUInt8) piece
      (textUntil total stops s).rest (encode source) := by
    refine ⟨⟨before, a.toUInt8, List.mem_map_of_mem ha, ?_⟩, ?_⟩
    · rw [← hpiece, hsource]
    · exact fun b hb => (hstops b).mp (stops_of_textUntil b hb)
  have hwrites : Writes Mark.escape (opens.map Char.toUInt8) (ends.map Char.toUInt8)
      (encode source) (textUntil total stops s).value :=
    ⟨piece, _, hbetween, hunbroken, hvalue⟩
  have hescape : ('%' : Char).val < 0x80 := by decide
  obtain ⟨text, htext, hwrites⟩ := hwrites.exists_chars hescape hopens hends
  exact ⟨text, hwrites, htext.trans (encode_ofList text).symm⟩

/-- What a replace mark begins is written in the source. -/
theorem textIn_replacement {total : Nat} (ha : '|' ∈ opens) (hs : s <:+ encode source) :
  ∀ t ∈ (replacement total stops s).value, TextIn opens ends source t
  := by
  intro t ht
  cases s with
  | nil => cases ht
  | cons b rest =>
      rw [replacement] at ht
      split at ht
      · next hb =>
        obtain rfl := Option.some.inj ht
        apply textIn_textUntil hopens hends hstops ha
        rwa [hb] at hs
      · cases ht

omit hopens hends hstops

/-! ### References -/

theorem endsMember_iff (b : UInt8) :
  Mark.endsMember b = true ↔ b ∈ [',', '>', '|'].map Char.toUInt8
  := by
  change _ ↔ b ∈ [Mark.comma, Mark.classClose, Mark.replace]
  simp [Mark.endsMember, or_assoc]

theorem endsMemberReplacement_iff (b : UInt8) :
  Mark.endsMemberReplacement b = true ↔ b ∈ [',', '>'].map Char.toUInt8
  := by
  change _ ↔ b ∈ [Mark.comma, Mark.classClose]
  simp [Mark.endsMemberReplacement]

theorem endsBranchReplacement_iff (b : UInt8) :
  Mark.endsBranchReplacement b = true ↔ b ∈ [',', ')'].map Char.toUInt8
  := by
  change _ ↔ b ∈ [Mark.comma, Mark.groupClose]
  simp [Mark.endsBranchReplacement]

theorem endsName_iff (b : UInt8) :
  Mark.endsName b = true ↔ b ∈ ['>', ':'].map Char.toUInt8
  := by
  change _ ↔ b ∈ [Mark.classClose, Mark.declare]
  simp [Mark.endsName]

/-- The bytes stand in the source behind a mark that a member may follow. -/
def BehindMark (source : String) (s : Bytes) : Prop :=
  ∃ a ∈ [':', ','], a.toUInt8 :: s <:+ encode source

/-- A member stands in the source behind the mark in front of it. -/
theorem memberIn_ofText {total : Nat} (hs : BehindMark source s) :
  let text := textUntil total Mark.endsMember s
  MemberIn source (.ofText text.value (replacement total Mark.endsMemberReplacement text.rest).value)
  := by
  obtain ⟨a, ha, hs⟩ := hs
  refine ⟨_, _, rfl, textIn_textUntil (by decide) (by decide) endsMember_iff ha hs, ?_⟩
  apply textIn_replacement (by decide) (by decide) endsMemberReplacement_iff (by decide)
  exact (suffix_textUntil total _ s).trans ((List.suffix_cons _ s).trans hs)

/-- So does each one behind the first. -/
theorem memberIn_of_mem_members {total : Nat} (hs : BehindMark source s) :
  ∀ m ∈ (members total s).value, MemberIn source m
  := by
  fun_induction members total s with
  | case1 s text replaced here rest hafter more ih =>
      intro m hm
      obtain hm | hm := List.mem_append.mp hm
      · rw [List.mem_singleton.mp (List.mem_ite_nil_left.mp hm).2]
        exact memberIn_ofText hs
      · have hcomma : replaced.rest = Mark.comma :: rest := eq_cons_of_after? hafter
        have hreplaced : replaced.rest <:+ s :=
          (suffix_replacement total _ text.rest).trans (suffix_textUntil total _ s)
        rw [hcomma] at hreplaced
        obtain ⟨a, -, hs⟩ := hs
        exact ih ⟨',', by decide, hreplaced.trans ((List.suffix_cons _ s).trans hs)⟩ m hm
  | case2 s text replaced here hafter =>
      intro m hm
      rw [List.mem_singleton.mp (List.mem_ite_nil_left.mp hm).2]
      exact memberIn_ofText hs

/-- A name stands in the source behind an opening mark. -/
theorem nameIn_takeWhile (hs : Mark.classOpen :: s <:+ encode source) :
  NameIn source (s.takeWhile (!Mark.endsName ·))
  := by
  obtain ⟨before, hsource⟩ := hs
  have hascii : Ascii ['>', ':'] := by decide
  have hbetween : Between (['<'].map Char.toUInt8) (['>', ':'].map Char.toUInt8)
      (s.takeWhile (!Mark.endsName ·)) (s.dropWhile (!Mark.endsName ·)) (encode source) := by
    refine ⟨⟨before, Mark.classOpen, by decide, ?_⟩, ?_⟩
    · rw [List.takeWhile_append_dropWhile, hsource]
    · intro b hb
      have hends := List.head?_dropWhile_not (!Mark.endsName ·) s
      rw [Option.mem_def.mp hb] at hends
      exact (endsName_iff b).mp (Bool.not_eq_eq_eq_not.mp hends)
  obtain ⟨piece, after, hpiece, -, hbetween⟩ := hbetween.exists_chars (by decide) hascii
  refine ⟨piece, after, hbetween, ?_, hpiece.trans (encode_ofList piece).symm⟩
  intro c hc hend
  have hmem : c.toUInt8 ∈ s.takeWhile (!Mark.endsName ·) := by
    rw [hpiece]
    refine List.mem_flatMap.mpr ⟨c, hc, ?_⟩
    rw [utf8EncodeChar_of_ascii (hascii.lt hend)]
    exact List.mem_singleton_self _
  have hnot := List.mem_takeWhile_imp hmem
  have hname : Mark.endsName c.toUInt8 = true := (endsName_iff _).mpr (List.mem_map_of_mem hend)
  rw [hname] at hnot
  cases hnot

theorem memberIn_of_mem_nameAndMembers {total : Nat} (hs : s <:+ encode source) :
  ∀ m ∈ (nameAndMembers total s).value.members, MemberIn source m
  := by
  intro m hm
  rw [nameAndMembers] at hm
  dsimp only at hm
  split at hm
  · next rest hafter =>
    have hdeclare : Mark.declare :: rest <:+ s := by
      rw [← eq_cons_of_after? hafter]
      apply List.dropWhile_suffix
    exact memberIn_of_mem_members ⟨':', by decide, hdeclare.trans hs⟩ m hm
  · cases hm

/-- All that a reference names and declares is written in the source. -/
theorem in_reference (total pos : Nat) (hs : Mark.classOpen :: s <:+ encode source) :
  NameIn source (reference total pos s).value.name ∧
    ∀ m ∈ (reference total pos s).value.members, MemberIn source m
  := by
  have hmembers : (reference total pos s).value.members =
      (nameAndMembers total s).value.members := by
    rw [reference]
    split
    · rfl
    · rfl
  rw [name_reference, hmembers]
  use nameIn_takeWhile hs
  exact memberIn_of_mem_nameAndMembers ((List.suffix_cons _ s).trans hs)

/-! ### Replacements of branches -/

/-- The replacement of the branch that ends with an item. -/
def Item.replacement? : Item → Option Bytes
  | branchEnd replacement => replacement
  | groupClose replacement _ => replacement
  | cutOff replacement => replacement
  | _ => none

/-- The replacement of a branch is written in the source. -/
theorem textIn_item {total : Nat} {inGroup : Bool} {b : UInt8} {rest : Bytes}
    (hs : b :: rest <:+ encode source) :
  ∀ t ∈ (item total inGroup b rest).value.replacement?, TextIn ['|'] [',', ')'] source t
  := by
  have hreplaced : ∀ t ∈ (replacement total Mark.endsBranchReplacement (b :: rest)).value,
      TextIn ['|'] [',', ')'] source t :=
    textIn_replacement (by decide) (by decide) endsBranchReplacement_iff (by decide) hs
  intro t ht
  rcases item_cases inGroup b with hb | rfl | rfl | rfl | rfl | hb
  · rw [item_end rest hb, branchEnd] at ht
    dsimp only at ht
    split at ht
    · exact hreplaced t ht
    · split at ht
      · exact hreplaced t ht
      · exact hreplaced t ht
  · rw [item_groupOpen] at ht
    cases ht
  · rw [item_classOpen] at ht
    cases ht
  · rw [item_setOpen] at ht
    cases ht
  · rw [item_wildcard] at ht
    cases ht
  · rw [item_text rest hb] at ht
    cases ht

theorem replacements_textNodes (total : Nat) (inGroup : Bool) (b : UInt8) (rest : Bytes) :
  replacements (textNodes total inGroup b rest).value = []
  := by
  rw [textNodes]
  dsimp only
  split
  · rw [← ofText_withReps_once (List.dropLast _), ← List.singleton_append, replacements_append,
      replacements_ofText, replacements_ofText, List.nil_append]
  · apply replacements_ofText

/-- Items that are nodes have no branches. -/
theorem replacements_item {total : Nat} {inGroup : Bool} {b : UInt8} {rest : Bytes}
    {nodes : List Node} (h : (item total inGroup b rest).value = .nodes nodes) :
  replacements nodes = []
  := by
  rcases item_value_cases rest total inGroup b with h' | ⟨-, h'⟩ | ⟨-, _, h'⟩ | ⟨_, _, h'⟩ | h'
  · rw [h] at h'
    cases h'
  · cases h.symm.trans h'
  · cases h.symm.trans h'
  · rw [Item.nodes.inj (h.symm.trans h')]
    rfl
  · rw [Item.nodes.inj (h.symm.trans h')]
    apply replacements_textNodes

/-- The replacements in a group that is open satisfy a condition. -/
structure OpenGroup.Replaced (P : Bytes → Prop) (g : OpenGroup) : Prop where
  before : ∀ t ∈ replacements g.before, P t
  branches : ∀ b ∈ g.branches, ∀ t, b.replacement = some t ∨ t ∈ replacements b.nodes → P t

namespace Reader

/-- All replacements that a reader has met satisfy a condition. -/
structure Replaced (P : Bytes → Prop) (r : Reader) : Prop where
  chain : ∀ t ∈ replacements r.chain, P t
  opened : ∀ g ∈ r.opened, g.Replaced P

variable {P : Bytes → Prop} {r : Reader}

theorem Replaced.append (h : r.Replaced P) {nodes : List Node} (hnodes : replacements nodes = []) :
  (r.append nodes).Replaced P
  where
  opened := h.opened
  chain := by
    intro t ht
    rw [Reader.append, replacements_append, hnodes, List.append_nil] at ht
    exact h.chain t ht

theorem Replaced.openGroup (h : r.Replaced P) (pos : Nat) :
  (r.openGroup pos).Replaced P
  where
  chain := List.forall_mem_nil _
  opened := List.forall_mem_cons.mpr ⟨⟨h.chain, List.forall_mem_nil _⟩, h.opened⟩

theorem Replaced.endBranch (h : r.Replaced P) {replacement : Option Bytes}
    (hreplacement : ∀ t ∈ replacement, P t) :
  (r.endBranch replacement).Replaced P
  := by
  cases hg : r.opened with
  | nil =>
      rw [r.endBranch_of_nil hg]
      exact h
  | cons g outer =>
      have hopened := h.opened
      rw [hg] at hopened
      obtain ⟨hg', houter⟩ := List.forall_mem_cons.mp hopened
      rw [r.endBranch_of_opened hg]
      refine ⟨List.forall_mem_nil _, List.forall_mem_cons.mpr ⟨⟨hg'.before, ?_⟩, houter⟩⟩
      intro b hb t ht
      rcases List.mem_append.mp hb with hb | hb
      · exact hg'.branches b hb t ht
      · rw [List.mem_singleton.mp hb] at ht
        rcases ht with ht | ht
        · exact hreplacement t ht
        · exact h.chain t ht

theorem Replaced.closeGroup (h : r.Replaced P) (reps : Reps) :
  (r.closeGroup reps).Replaced P
  := by
  rw [Reader.closeGroup]
  split
  · exact h
  · next g outer hg =>
    have hopened := h.opened
    rw [hg] at hopened
    obtain ⟨hg', houter⟩ := List.forall_mem_cons.mp hopened
    refine ⟨?_, houter⟩
    intro t ht
    rw [replacements_append, List.mem_append] at ht
    rcases ht with ht | ht
    · exact hg'.before t ht
    · obtain ⟨b, hb, ht⟩ := mem_replacements_group ht
      exact hg'.branches b hb t ht

theorem Replaced.abandonGroup (h : r.Replaced P) :
  r.abandonGroup.Replaced P
  := by
  rw [Reader.abandonGroup]
  split
  · exact h
  · have hclosed := h.closeGroup .once
    exact ⟨hclosed.chain, hclosed.opened⟩

/-- An item adds its own replacement, if it ends a branch. -/
theorem Replaced.take (h : r.Replaced P) (pos : Nat) {i : Item}
    (hi : ∀ t ∈ i.replacement?, P t) (hnodes : ∀ nodes, i = .nodes nodes → replacements nodes = []) :
  (r.take pos i).Replaced P
  := by
  cases i with
  | groupOpen => exact h.openGroup pos
  | branchEnd replacement => exact h.endBranch hi
  | groupClose replacement reps => exact (h.endBranch hi).closeGroup reps
  | cutOff replacement => exact (h.endBranch hi).abandonGroup
  | reference ref reps =>
      have hleaf := h.append (replacements_leaf (.memberOf (r.lexicon.idOf ref.name)) reps)
      exact ⟨hleaf.chain, hleaf.opened⟩
  | nodes nodes => exact h.append (hnodes nodes rfl)

theorem Replaced.finish (h : r.Replaced P) :
  r.finish.Replaced P
  := by
  rw [Reader.finish]
  generalize r.opened = opened
  induction opened generalizing r with
  | nil => exact h
  | cons g opened ih => exact ih (h.endBranch fun t ht => absurd ht (Option.not_mem_none t)).abandonGroup

/-- All replacements of branches are written in the source. -/
theorem Replaced.read {total : Nat} (h : r.Replaced (TextIn ['|'] [',', ')'] source))
    (hs : s <:+ encode source) :
  (r.read total s).Replaced (TextIn ['|'] [',', ')'] source)
  := by
  fun_induction Reader.read total r s with
  | case1 r => exact h.finish
  | case2 r b rest scan ih =>
      have hwarn : (r.warn scan.warnings).Replaced (TextIn ['|'] [',', ')'] source) :=
        ⟨h.chain, h.opened⟩
      apply ih
      · exact hwarn.take _ (textIn_item hs) fun nodes hnodes => replacements_item hnodes
      · apply (suffix_item total r.inGroup b rest).trans
        apply (List.suffix_cons b rest).trans hs

end Reader

/-! ### Decoding -/

/-- Nothing is lost when the bytes are decoded: they are those of a text, and this text has no
characters but those of the source in their order, which holds of replacement characters too. -/
structure DecodedFrom (source : String) (t : Bytes) : Prop where
  isText : IsText t
  encode_decode : encode (decode t) = t
  sublist : (decode t).toList.Sublist source.toList
  undamaged : '\uFFFD' ∈ (decode t).toList → '\uFFFD' ∈ source.toList

theorem decodedFrom_encode {text : List Char} (h : text.Sublist source.toList) :
  DecodedFrom source (encode (.ofList text))
  := by
  have hdecode : (decode (encode (.ofList text))).toList = text := by
    rw [decode_encode, String.toList_ofList]
  constructor
  · exact ⟨_, rfl⟩
  · rw [decode_encode]
  · rwa [hdecode]
  · rw [hdecode]
    exact fun hmem => h.subset hmem

theorem TextIn.decodedFrom {t : Bytes} (h : TextIn opens ends source t) :
  DecodedFrom source t
  := by
  obtain ⟨text, hwrites, rfl⟩ := h
  exact decodedFrom_encode hwrites.sublist

theorem NameIn.decodedFrom {name : Bytes} (h : NameIn source name) :
  DecodedFrom source name
  := by
  obtain ⟨piece, after, hbetween, -, rfl⟩ := h
  exact decodedFrom_encode hbetween.infix.sublist

theorem MemberIn.decodedFrom {m : Member} (h : MemberIn source m) :
  DecodedFrom source m.text ∧ DecodedFrom source m.replacement
  := by
  obtain ⟨text, replaced, rfl, htext, hreplaced⟩ := h
  use htext.decodedFrom
  cases replaced with
  | none => exact htext.decodedFrom
  | some t => exact (hreplaced t rfl).decodedFrom

/-- What the bytes are when they were decoded, with replacement characters in the place of
defects. -/
def mend (t : Bytes) : Bytes := encode (decode t)

/-- The reference when all its texts were decoded. -/
def Reference.mend (ref : Reference) : Reference where
  name := Source.mend ref.name
  members := ref.members.map fun m => ⟨Source.mend m.text, Source.mend m.replacement⟩

/-- The item when all texts of a reference were decoded. -/
def Item.mend : Item → Item
  | reference ref reps => reference ref.mend reps
  | i => i

/-- The texts that a reference consists of. -/
def Reference.texts (ref : Reference) : List Bytes :=
  ref.name :: ref.members.flatMap fun m => [m.text, m.replacement]

/-- The reader after all items of the rest of a pattern, when all texts of references were
decoded. -/
def Reader.readMending (total : Nat) (r : Reader) : Bytes → Reader
  | [] => r.finish
  | b :: rest =>
    let scan := item total r.inGroup b rest
    ((r.warn scan.warnings).take (position total (b :: rest)) scan.value.mend).readMending total
      scan.rest
  termination_by s => s.length
  decreasing_by apply Nat.lt_succ_of_le (length_item_le total r.inGroup b rest)

theorem mend_reference {total pos : Nat} (hs : Mark.classOpen :: s <:+ encode source) :
  (reference total pos s).value.mend = (reference total pos s).value
  := by
  obtain ⟨hname, hmembers⟩ := in_reference total pos hs
  generalize (reference total pos s).value = ref at hname hmembers ⊢
  have hmap : ref.members.map (fun m => ⟨mend m.text, mend m.replacement⟩) = ref.members.map id := by
    apply List.map_congr_left
    intro m hm
    obtain ⟨htext, hreplacement⟩ := (hmembers m hm).decodedFrom
    rw [mend, mend, htext.encode_decode, hreplacement.encode_decode]
    rfl
  rw [Reference.mend, hmap, List.map_id, mend, hname.decodedFrom.encode_decode]

theorem mend_item {total : Nat} {inGroup : Bool} {b : UInt8} {rest : Bytes}
    (hs : b :: rest <:+ encode source) :
  (item total inGroup b rest).value.mend = (item total inGroup b rest).value
  := by
  cases h : (item total inGroup b rest).value with
  | reference ref reps =>
      obtain ⟨rfl, rfl⟩ := reference_of_item h
      rw [Item.mend, mend_reference hs]
  | _ => rfl

theorem Reader.readMending_eq (total : Nat) (r : Reader) (hs : s <:+ encode source) :
  r.readMending total s = r.read total s
  := by
  fun_induction readMending total r s with
  | case1 r => rw [read]
  | case2 r b rest scan ih =>
      have hrest : scan.rest <:+ encode source := by
        apply (suffix_item total r.inGroup b rest).trans
        apply (List.suffix_cons b rest).trans hs
      rw [ih hrest, mend_item hs, read]

end Source

namespace Reading

/-- Reads the source of a pattern, where all texts of references are decoded. -/
def ofSourceMending (source : Bytes) (lexicon : Lexicon) : Reading :=
  let r := (Source.Reader.start lexicon).readMending source.length source
  ⟨⟨r.chain, r.groups⟩, r.warnings, r.lexicon⟩

/-- The texts that are taken from a source: those of references, and replacements of branches. -/
def textsOfSource (source : Bytes) (lexicon : Lexicon) : List Bytes :=
  (Source.referencesIn source).flatMap Source.Reference.texts ++
    Node.replacements (ofSource source lexicon).pattern.nodes

open Source

/-- Each text that is taken from a source is written there, without the escapes in front of its
characters.  So it is a text, decoding it changes nothing, and it has no replacement character that
does not stand in the source. -/
theorem texts_ofSource_encode (source : String) (lexicon : Lexicon) :
  let bytes := Utf8.encode source
  let reading := ofSource bytes lexicon
  reading.lexicon = (referencesIn bytes).foldl Lexicon.declare lexicon ∧
    (∀ ref ∈ referencesIn bytes, NameIn source ref.name ∧ ∀ m ∈ ref.members, MemberIn source m) ∧
    (∀ t ∈ Node.replacements reading.pattern.nodes, TextIn ['|'] [',', ')'] source t) ∧
    (∀ t ∈ textsOfSource bytes lexicon, DecodedFrom source t) ∧
    ofSourceMending bytes lexicon = reading
  := by
  intro bytes reading
  have hreferences : ∀ ref ∈ referencesIn bytes,
      NameIn source ref.name ∧ ∀ m ∈ ref.members, MemberIn source m := by
    intro ref href
    obtain ⟨rest, hsuffix, rfl⟩ := exists_of_mem_referencesIn href
    exact in_reference _ _ hsuffix
  have hreplacements : ∀ t ∈ Node.replacements reading.pattern.nodes,
      TextIn ['|'] [',', ')'] source t := by
    have hstart : (Reader.start lexicon).Replaced (TextIn ['|'] [',', ')'] source) :=
      ⟨List.forall_mem_nil _, List.forall_mem_nil _⟩
    exact (hstart.read (List.suffix_refl bytes)).chain
  refine ⟨lexicon_ofSource bytes lexicon, hreferences, hreplacements, ?_, ?_⟩
  · intro t ht
    rcases List.mem_append.mp ht with ht | ht
    · obtain ⟨ref, href, ht⟩ := List.mem_flatMap.mp ht
      obtain ⟨hname, hmembers⟩ := hreferences ref href
      rcases List.mem_cons.mp ht with rfl | ht
      · exact hname.decodedFrom
      · obtain ⟨m, hm, ht⟩ := List.mem_flatMap.mp ht
        obtain ⟨htext, hreplacement⟩ := (hmembers m hm).decodedFrom
        rcases List.mem_pair.mp ht with rfl | rfl
        · exact htext
        · exact hreplacement
    · exact (hreplacements t ht).decodedFrom
  · rw [ofSourceMending, Reader.readMending_eq _ _ (List.suffix_refl bytes)]
    rfl

/-- An escape may stand in front of a character of several bytes, and a text may end the source. -/
theorem texts_ofSource_encode_of_escapes :
  let source := "(a|%é%,)<né:%é|x%>,z|é"
  (∃ ref ∈ referencesIn (Utf8.encode source),
    NameIn source ref.name ∧ ref.name = Utf8.encode "né" ∧
      ∃ m ∈ ref.members, MemberIn source m ∧ m = ⟨Utf8.encode "é", Utf8.encode "x>"⟩) ∧
    TextIn ['|'] [',', ')'] source (Utf8.encode "é,") ∧
    DecodedFrom source (Utf8.encode "é")
  := by
  intro source
  let ref : Reference :=
    ⟨Utf8.encode "né", [⟨Utf8.encode "é", Utf8.encode "x>"⟩, ⟨Utf8.encode "z", Utf8.encode "é"⟩]⟩
  have href : ref ∈ referencesIn (Utf8.encode source) := by decide +kernel
  obtain ⟨-, hreferences, hreplacements, htexts, -⟩ := texts_ofSource_encode source .empty
  obtain ⟨hname, hmembers⟩ := hreferences ref href
  refine ⟨⟨ref, href, hname, rfl, _, List.mem_cons_self, hmembers _ List.mem_cons_self, rfl⟩, ?_, ?_⟩
  · apply hreplacements
    decide +kernel
  · apply htexts
    decide +kernel

end Reading

end Respell
