import Respell.Proofs.Source.Closing
import Respell.Proofs.Source.Count
import Respell.Proofs.Source.Reader
import Respell.Proofs.Source.Rest

/-!
# The roles of bytes

Each byte of a source has one role.  It is part of a text, where it stands for itself or belongs to
an escape, or of a quantifier, a set, a reference or a replacement, or it is a mark by which
branches or items begin or end.  The roles are given item by item, as the source is read.

What can be said of the byte at one place depends on its role there, on what stands behind it, and
on whether anything in front of it could be repeated.
-/

namespace Respell

/-- The marks with which quantifiers begin. -/
def Mark.quantifiers : List UInt8 := [optional, star, plus, countOpen]

namespace Source

/-- What a byte of a source is there for. -/
inductive Role where
  /-- It begins a branch: it opens a group or separates its branches. -/
  | branchBegin
  /-- It ends a branch, or its nodes in front of the replacement. -/
  | branchEnd
  /-- It begins a set or a reference, or is a wildcard. -/
  | itemBegin
  /-- It belongs to a set, behind the mark that begins it. -/
  | inSet
  /-- It belongs to a reference, behind the mark that begins it. -/
  | inReference
  /-- It belongs to the replacement of a branch. -/
  | inReplacement
  /-- It begins a quantifier, which gives these bounds. -/
  | quantifier (reps : Reps)
  /-- It belongs to a count, behind the brace that opens it. -/
  | inCount
  /-- It takes the next byte of a text literally. -/
  | escape
  /-- It belongs to a text, behind an escape mark. -/
  | escaped
  /-- It belongs to a text and stands for itself. -/
  | plain
  deriving DecidableEq

namespace Role

/-- The byte is not escaped, and it does not stand inside of a set, of a reference or of
a replacement. -/
def isOpen : Role → Bool
  | inSet => false
  | inReference => false
  | inReplacement => false
  | escaped => false
  | _ => true

/-- The byte is part of a quantifier. -/
def quantifies : Role → Bool
  | quantifier _ => true
  | inCount => true
  | _ => false

/-- Right behind the byte there is nothing that a quantifier could repeat: a branch begins there,
or the last quantifier ends. -/
def isVacant : Role → Bool
  | branchBegin => true
  | quantifier _ => true
  | inCount => true
  | _ => false

/-- The byte `b` in front of some bytes may have the role.  A place is vacant when there is nothing
right in front of it that a quantifier could repeat.  Only there the bytes of a quantifier stand
for themselves. -/
def Suits (vacant : Bool) (b : UInt8) (rest : Bytes) : Role → Prop
  | branchBegin => b = Mark.groupOpen ∨ b = Mark.comma
  | branchEnd => b = Mark.replace ∨ b = Mark.groupClose
  | itemBegin => b = Mark.classOpen ∨ b = Mark.setOpen ∨ b = Mark.wildcard
  | quantifier reps => vacant = false ∧ ∃ t, quantifier? (b :: rest) = some (reps, t)
  | inCount => Byte.isDigit b = true ∨ b = Mark.comma ∨ b = Mark.countClose
  | escape => b = Mark.escape
  | plain =>
    Mark.beginsItem b = false ∧ (vacant = false → startsQuantifier (b :: rest) = false)
  | _ => True

/-- A mark of a quantifier is taken into a text or begins a quantifier, unless it is escaped or
stands inside of something. -/
theorem Suits.plain_or_quantifier {role : Role} {vacant : Bool} {b : UInt8} {rest : Bytes}
    (h : role.Suits vacant b rest) (hopen : role.isOpen = true) (hb : b ∈ Mark.quantifiers) :
  role = .plain ∨ ∃ reps, role = .quantifier reps
  := by
  have hne : ∀ {mark : UInt8}, mark ∉ Mark.quantifiers → b ≠ mark := fun hmark he => hmark (he ▸ hb)
  cases role with
  | plain => exact .inl rfl
  | quantifier reps => exact .inr ⟨reps, rfl⟩
  | branchBegin =>
      rcases h with h | h
      all_goals exact absurd h (hne (by decide))
  | branchEnd =>
      rcases h with h | h
      all_goals exact absurd h (hne (by decide))
  | itemBegin =>
      rcases h with h | h | h
      all_goals exact absurd h (hne (by decide))
  | inCount =>
      have hdigit : Mark.quantifiers.all (!Byte.isDigit ·) = true := rfl
      rcases h with h | h | h
      · have hnot := List.all_eq_true.mp hdigit b hb
        rw [h] at hnot
        cases hnot
      all_goals exact absurd h (hne (by decide))
  | escape => exact absurd h (hne (by decide))
  | _ => cases hopen

end Role

/-! ### Roles of what scans take -/

/-- The same role for all bytes that are taken in front of `rest`. -/
def taken (role : Role) (s rest : Bytes) : List Role :=
  List.replicate (s.length - rest.length) role

/-- The roles of the bytes of the quantifier in front, if there is one. -/
def quantifierRoles (s : Bytes) : List Role :=
  match quantifier? s with
  | none => []
  | some (reps, rest) => .quantifier reps :: taken .inCount s.tail rest

/-- The roles of the bytes of one byte of text. -/
def textByteRoles (b : UInt8) (rest : Bytes) : List Role :=
  if b = Mark.escape ∧ rest ≠ [] then [.escape, .escaped] else [.plain]

/-- The roles of the bytes of the rest of a run of text. -/
def moreTextRoles (total : Nat) (inGroup : Bool) : Bytes → List Role
  | [] => []
  | b :: rest =>
    if endsRun inGroup (b :: rest) then []
    else textByteRoles b rest ++ moreTextRoles total inGroup (textByte total b rest).rest
  termination_by s => s.length
  decreasing_by apply Nat.lt_succ_of_le (length_textByte_le total b rest)

/-- The roles of the bytes of a run of text that begins with the byte `b`. -/
def textRoles (total : Nat) (inGroup : Bool) (b : UInt8) (rest : Bytes) : List Role :=
  textByteRoles b rest ++ moreTextRoles total inGroup (textByte total b rest).rest

/-- The roles of the bytes of a replacement in front of `rest'`, if the byte `b` begins one. -/
def replacementRoles (b : UInt8) (rest rest' : Bytes) : List Role :=
  if b = Mark.replace then .branchEnd :: taken .inReplacement rest rest' else []

/-- The roles of the bytes of the end of a branch, which begins with the byte `b`. -/
def branchEndRoles (total : Nat) (b : UInt8) (rest : Bytes) : List Role :=
  let replaced := replacement total Mark.endsBranchReplacement (b :: rest)
  replacementRoles b rest replaced.rest ++
    match replaced.rest with
    | [] => []
    | c :: rest => if c = Mark.comma then [.branchBegin] else .branchEnd :: quantifierRoles rest

/-- The roles of the bytes of the item that begins with the byte `b`. -/
def itemRoles (total : Nat) (inGroup : Bool) (b : UInt8) (rest : Bytes) : List Role :=
  if inGroup && Mark.endsBranch b then branchEndRoles total b rest
  else if b = Mark.groupOpen then [.branchBegin]
  else if b = Mark.classOpen then
    let ref := reference total (position total (b :: rest)) rest
    .itemBegin :: (taken .inReference rest ref.rest ++ quantifierRoles ref.rest)
  else if b = Mark.setOpen then
    let members := set total (position total (b :: rest)) rest
    .itemBegin :: (taken .inSet rest members.rest ++ quantifierRoles members.rest)
  else if b = Mark.wildcard then .itemBegin :: quantifierRoles rest
  else
    textRoles total inGroup b rest ++ quantifierRoles (text total inGroup b rest).rest

/-- The roles of the bytes of the rest of a pattern, which has `total` bytes, where `depth` groups
are open. -/
def rolesFrom (total depth : Nat) : Bytes → List Role
  | [] => []
  | b :: rest =>
    let scan := item total (decide (0 < depth)) b rest
    itemRoles total (decide (0 < depth)) b rest ++
      rolesFrom total (scan.value.depthBehind depth) scan.rest
  termination_by s => s.length
  decreasing_by apply Nat.lt_succ_of_le (length_item_le total (decide (0 < depth)) b rest)

/-- The roles of all bytes of a source. -/
def roles (source : Bytes) : List Role := rolesFrom source.length 0 source

/-- Right behind bytes with these roles there is nothing that a quantifier could repeat, given
whether there is nothing right in front of them. -/
def vacantBehind (vacant : Bool) (roles : List Role) : Bool :=
  roles.foldl (fun _ role => role.isVacant) vacant

/-- The pattern begins at this place of a source, or a branch does, or a quantifier ends there. -/
def unpreceded (source : Bytes) (pos : Nat) : Bool :=
  vacantBehind true ((roles source).take pos)

/-! ### Roles suit their bytes -/

/-- The bytes of `s` in front of `t` have roles that suit them, where the place in front of them is
vacant or not, and so is the place behind them. -/
inductive Roled : Bool → Bytes → List Role → Bytes → Bool → Prop
  | nil (vacant : Bool) (s : Bytes) : Roled vacant s [] s vacant
  | cons {vacant vacant' : Bool} {b : UInt8} {s t : Bytes} {role : Role} {roles : List Role}
      (h : role.Suits vacant b s) (hmore : Roled role.isVacant s roles t vacant') :
      Roled vacant (b :: s) (role :: roles) t vacant'

section Roled

variable {vacant vacant' vacant'' : Bool} {s t u : Bytes} {roles roles' : List Role}

theorem Roled.append (h : Roled vacant s roles t vacant') (h' : Roled vacant' t roles' u vacant'') :
  Roled vacant s (roles ++ roles') u vacant''
  := by
  induction h with
  | nil => exact h'
  | cons hb _ ih => exact .cons hb (ih h')

theorem roled_singleton {b : UInt8} {role : Role} (h : role.Suits vacant b s) :
  Roled vacant (b :: s) [role] s role.isVacant
  := .cons h (.nil _ _)

/-- There is one role for each byte. -/
theorem Roled.length (h : Roled vacant s roles t vacant') :
  roles.length + t.length = s.length
  := by
  induction h with
  | nil => apply Nat.zero_add
  | cons _ _ ih =>
      rw [List.length_cons, List.length_cons, ← ih]
      omega

theorem Roled.drop (h : Roled vacant s roles t vacant') :
  s.drop roles.length = t
  := by
  induction h with
  | nil => rfl
  | cons _ _ ih => exact ih

theorem Roled.vacantBehind_eq (h : Roled vacant s roles t vacant') :
  vacantBehind vacant roles = vacant'
  := by
  induction h with
  | nil => rfl
  | cons _ _ ih => exact ih

/-- The role at a place suits the byte there. -/
theorem Roled.suits (h : Roled vacant s roles t vacant') {i : Nat} {role : Role}
    (hi : roles[i]? = some role) :
  ∃ b rest, s.drop i = b :: rest ∧ role.Suits (vacantBehind vacant (roles.take i)) b rest
  := by
  induction h generalizing i with
  | nil => cases hi
  | @cons vacant vacant' b s t first roles hb hmore ih =>
      cases i with
      | zero =>
          obtain rfl := Option.some.inj hi
          exact ⟨b, s, rfl, hb⟩
      | succ i => exact ih hi

end Roled

/-- If something in front of the bytes can be repeated they do not start with a quantifier. -/
def Settled (vacant : Bool) (s : Bytes) : Prop := vacant = false → startsQuantifier s = false

theorem settled_vacant (s : Bytes) :
  Settled true s
  := fun h => absurd h.symm Bool.false_ne_true

/-! ### Scans -/

section Scans

variable {vacant : Bool} {total : Nat} {inGroup : Bool} {b : UInt8} {rest : Bytes}

/-- A role that suits all bytes which are taken. -/
theorem roled_taken {role : Role} (hvacant : role.isVacant = vacant) (front : Bytes)
    (h : ∀ b ∈ front, ∀ rest, role.Suits vacant b rest) (t : Bytes) :
  Roled vacant (front ++ t) (taken role (front ++ t) t) t vacant
  := by
  rw [taken, List.length_append, Nat.add_sub_cancel]
  induction front with
  | nil => exact .nil vacant t
  | cons b front ih =>
      obtain ⟨hb, hfront⟩ := List.forall_mem_cons.mp h
      rw [List.length_cons, List.replicate_succ]
      apply Roled.cons (hb _)
      rw [hvacant]
      exact ih hfront

/-- What stands behind the brace of a count. -/
theorem Counts.exists_front {s t : Bytes} {reps : Reps} (h : Counts s reps t) :
  ∃ front, s = front ++ t ∧ ∀ b ∈ front, ∀ rest, Role.inCount.Suits true b rest
  := by
  have hdigits : ∀ {digits : Bytes}, Numeral digits → ∀ b ∈ digits, ∀ rest,
      Role.inCount.Suits true b rest := fun h b hb _ => Or.inl (h.isDigit b hb)
  have hcomma : ∀ rest, Role.inCount.Suits true Mark.comma rest := fun _ => Or.inr (Or.inl rfl)
  have hclose : ∀ b ∈ [Mark.countClose], ∀ rest, Role.inCount.Suits true b rest :=
    List.forall_mem_singleton.mpr fun _ => Or.inr (Or.inr rfl)
  cases h with
  | @exactly low _ _ hlow _ _ =>
      use low ++ [Mark.countClose]
      rw [List.append_assoc]
      exact ⟨rfl, List.forall_mem_append.mpr ⟨hdigits hlow, hclose⟩⟩
  | @atLeast low _ _ hlow _ _ =>
      use low ++ [Mark.comma, Mark.countClose]
      rw [List.append_assoc]
      exact ⟨rfl, List.forall_mem_append.mpr
        ⟨hdigits hlow, List.forall_mem_cons.mpr ⟨hcomma, hclose⟩⟩⟩
  | @between low high _ _ hlow hhigh _ _ =>
      use low ++ Mark.comma :: (high ++ [Mark.countClose])
      rw [List.append_assoc, List.cons_append, List.append_assoc]
      exact ⟨rfl, List.forall_mem_append.mpr
        ⟨hdigits hlow, List.forall_mem_cons.mpr
          ⟨hcomma, List.forall_mem_append.mpr ⟨hdigits hhigh, hclose⟩⟩⟩⟩

/-- A quantifier takes what it begins with, and a count what stands behind its brace as well. -/
theorem exists_front_of_quantifier? {t : Bytes} {reps : Reps}
    (h : quantifier? (b :: rest) = some (reps, t)) :
  ∃ front, rest = front ++ t ∧ ∀ b ∈ front, ∀ rest, Role.inCount.Suits true b rest
  := by
  have hnone : ∀ r : Reps, some (r, rest) = some (reps, t) → ∃ front, rest = front ++ t ∧
      ∀ b ∈ front, ∀ rest, Role.inCount.Suits true b rest := by
    intro r hr
    cases hr
    exact ⟨[], rfl, List.forall_mem_nil _⟩
  rw [quantifier?] at h
  split at h
  · exact hnone _ h
  split at h
  · exact hnone _ h
  split at h
  · exact hnone _ h
  split at h
  · exact (counts_of_count? h).exists_front
  · cases h

/-- Right behind a quantifier a place is vacant. -/
theorem roled_quantifier (total : Nat) (s : Bytes) :
  Roled false s (quantifierRoles s) (quantifier total s).rest (startsQuantifier s)
  := by
  rw [quantifierRoles, quantifier, startsQuantifier]
  cases hs : quantifier? s with
  | none => exact .nil false s
  | some found =>
      obtain ⟨reps, t⟩ := found
      cases s with
      | nil => cases hs
      | cons b rest =>
          obtain ⟨front, rfl, hfront⟩ := exists_front_of_quantifier? hs
          have htaken := roled_taken (rfl : Role.inCount.isVacant = true) front hfront t
          exact .cons ⟨rfl, t, hs⟩ htaken

/-- A quantifier is not left behind what it can repeat. -/
theorem settled_quantifier (total : Nat) (s : Bytes) :
  Settled (startsQuantifier s) (quantifier total s).rest
  := by
  intro hs
  rw [startsQuantifier, Option.isSome_eq_false_iff, Option.isNone_iff_eq_none] at hs
  rw [quantifier, hs, startsQuantifier, hs]
  rfl

/-- A byte of text, with which no item begins but a text. -/
theorem roled_textByte (total : Nat) (hb : Mark.beginsItem b = false) (h : Settled vacant (b :: rest)) :
  Roled vacant (b :: rest) (textByteRoles b rest) (textByte total b rest).rest false
  := by
  rw [textByteRoles, textByte.eq_def]
  by_cases hescape : b = Mark.escape
  · rw [if_pos hescape]
    cases rest with
    | nil =>
        rw [if_neg fun h => h.2 rfl]
        exact .cons ⟨hb, h⟩ (.nil _ _)
    | cons c rest =>
        rw [if_pos ⟨hescape, List.cons_ne_nil c rest⟩]
        exact .cons hescape (roled_singleton trivial)
  · rw [if_neg hescape, if_neg fun h => hescape h.1]
    exact roled_singleton ⟨hb, h⟩

/-- A run of text goes on with a byte with which nothing else begins. -/
theorem not_begins_of_not_ends (h : ¬ endsRun inGroup (b :: rest) = true) :
  Mark.beginsItem b = false ∧ startsQuantifier (b :: rest) = false
  := by
  simp only [endsRun, List.head?_cons, Option.any_some, Bool.or_eq_true, not_or,
    Bool.not_eq_true] at h
  exact ⟨h.1.1, h.2⟩

theorem roled_moreText (total : Nat) (inGroup : Bool) (s : Bytes) :
  Roled false s (moreTextRoles total inGroup s) (moreText total inGroup s).rest false
  := by
  fun_induction moreText total inGroup s with
  | case1 =>
      rw [moreTextRoles]
      exact .nil _ _
  | case2 b rest h =>
      rw [moreTextRoles, if_pos h]
      exact .nil _ _
  | case3 b rest h first more ih =>
      obtain ⟨hb, hstarts⟩ := not_begins_of_not_ends h
      rw [moreTextRoles, if_neg h]
      exact (roled_textByte total hb fun _ => hstarts).append ih

theorem roled_text (total : Nat) (hb : BeginsText inGroup b) (h : Settled vacant (b :: rest)) :
  Roled vacant (b :: rest) (textRoles total inGroup b rest) (text total inGroup b rest).rest false
  := (roled_textByte total hb.2 h).append (roled_moreText total inGroup _)

theorem roled_replacement (vacant : Bool) (total : Nat) (b : UInt8) (rest : Bytes) :
  let replaced := replacement total Mark.endsBranchReplacement (b :: rest)
  ∃ vacant',
    Roled vacant (b :: rest) (replacementRoles b rest replaced.rest) replaced.rest vacant'
  := by
  rw [replacement]
  by_cases hb : b = Mark.replace
  · rw [if_pos hb]
    dsimp only
    rw [replacementRoles, if_pos hb]
    obtain ⟨text, htext⟩ := suffix_textUntil total Mark.endsBranchReplacement rest
    have htaken := roled_taken (rfl : Role.inReplacement.isVacant = false) text
      (fun _ _ _ => trivial) (textUntil total Mark.endsBranchReplacement rest).rest
    rw [htext] at htaken
    exact ⟨false, .cons (show Role.branchEnd.Suits vacant b rest from Or.inl hb) htaken⟩
  · rw [if_neg hb]
    dsimp only
    rw [replacementRoles, if_neg hb]
    exact ⟨vacant, .nil _ _⟩

/-- Behind the replacement, if there is one, a branch ends with a comma, with its group or with the
pattern. -/
theorem ends_of_replacement (total : Nat) (rest : Bytes) (hb : Mark.endsBranch b = true) :
  ∀ d ∈ (replacement total Mark.endsBranchReplacement (b :: rest)).rest.head?,
    d = Mark.comma ∨ d = Mark.groupClose
  := by
  intro d hd
  rcases stops_of_replacement d hd with hd | ⟨hd, hne⟩
  · simpa [Mark.endsBranchReplacement] using hd
  · obtain rfl := Option.some.inj hd
    simpa [Mark.endsBranch, hne] using hb

theorem roled_branchEnd (hb : Mark.endsBranch b = true) :
  ∃ vacant', Roled vacant (b :: rest) (branchEndRoles total b rest)
      (branchEnd total b rest).rest vacant' ∧
    Settled vacant' (branchEnd total b rest).rest
  := by
  obtain ⟨vacant', hfront⟩ := roled_replacement vacant total b rest
  have hends := ends_of_replacement total rest hb
  generalize hreplaced : replacement total Mark.endsBranchReplacement (b :: rest) = replaced
    at hfront hends
  rw [branchEndRoles, hreplaced]
  cases hrest : replaced.rest with
  | nil =>
      rw [hrest] at hfront
      rw [branchEnd_of_nil hreplaced hrest]
      exact ⟨vacant', hfront.append (.nil _ _), fun _ => rfl⟩
  | cons d t =>
      rw [hrest] at hfront hends
      by_cases hd : d = Mark.comma
      · rw [branchEnd_of_comma hreplaced (hd ▸ hrest)]
        dsimp only
        rw [if_pos hd]
        exact ⟨true, hfront.append (roled_singleton (Or.inr hd)), settled_vacant t⟩
      · rw [branchEnd_of_cons hreplaced hrest hd]
        dsimp only
        rw [if_neg hd]
        have hclose := (hends d rfl).resolve_left hd
        exact ⟨startsQuantifier t,
          hfront.append (.cons (Or.inr hclose) (roled_quantifier total t)),
          settled_quantifier total t⟩

/-- An item that begins with a mark of its own, takes some bytes and may be repeated. -/
theorem roled_itemBegin {role : Role} (hrole : role.isVacant = false)
    (hsuits : ∀ b rest, role.Suits false b rest) (hb : Role.itemBegin.Suits vacant b rest)
    {t : Bytes} (ht : t <:+ rest) :
  Roled vacant (b :: rest) (.itemBegin :: (taken role rest t ++ quantifierRoles t))
    (quantifier total t).rest (startsQuantifier t)
  := by
  obtain ⟨front, rfl⟩ := ht
  have htaken := roled_taken hrole front (fun b _ rest => hsuits b rest) t
  exact .cons hb (htaken.append (roled_quantifier total t))

section Kinds

variable (total : Nat) (rest : Bytes)

theorem itemRoles_groupOpen :
  itemRoles total inGroup Mark.groupOpen rest = [.branchBegin]
  := by
  cases inGroup with
  | false => rfl
  | true => rfl

theorem itemRoles_classOpen :
  itemRoles total inGroup Mark.classOpen rest =
    let ref := reference total (position total (Mark.classOpen :: rest)) rest
    .itemBegin :: (taken .inReference rest ref.rest ++ quantifierRoles ref.rest)
  := by
  cases inGroup with
  | false => rfl
  | true => rfl

theorem itemRoles_setOpen :
  itemRoles total inGroup Mark.setOpen rest =
    let members := set total (position total (Mark.setOpen :: rest)) rest
    .itemBegin :: (taken .inSet rest members.rest ++ quantifierRoles members.rest)
  := by
  cases inGroup with
  | false => rfl
  | true => rfl

theorem itemRoles_wildcard :
  itemRoles total inGroup Mark.wildcard rest = .itemBegin :: quantifierRoles rest
  := by
  cases inGroup with
  | false => rfl
  | true => rfl

theorem itemRoles_text (h : BeginsText inGroup b) :
  itemRoles total inGroup b rest =
    textRoles total inGroup b rest ++ quantifierRoles (text total inGroup b rest).rest
  := by
  obtain ⟨hend, hbegins⟩ := h
  simp only [Mark.beginsItem, Bool.or_eq_false_iff, decide_eq_false_iff_not] at hbegins
  rw [itemRoles, hend, if_neg Bool.false_ne_true, if_neg hbegins.1.1.1, if_neg hbegins.1.1.2,
    if_neg hbegins.1.2, if_neg hbegins.2]

end Kinds

/-- The roles of an item suit its bytes, and it takes the quantifier behind it if it can be
repeated. -/
theorem roled_item (total : Nat) (inGroup : Bool) (h : Settled vacant (b :: rest)) :
  ∃ vacant', Roled vacant (b :: rest) (itemRoles total inGroup b rest)
      (item total inGroup b rest).rest vacant' ∧
    Settled vacant' (item total inGroup b rest).rest
  := by
  rcases item_cases inGroup b with hb | rfl | rfl | rfl | rfl | hb
  · rw [item_end rest hb, itemRoles, if_pos hb]
    exact roled_branchEnd ((Bool.and_eq_true _ _).mp hb).2
  · rw [item_groupOpen, itemRoles_groupOpen]
    exact ⟨true, roled_singleton (Or.inl rfl), settled_vacant rest⟩
  · rw [item_classOpen, itemRoles_classOpen]
    refine ⟨_, ?_, settled_quantifier total _⟩
    apply roled_itemBegin (rfl : Role.inReference.isVacant = false) (fun _ _ => trivial) (Or.inl rfl)
    apply suffix_reference
  · rw [item_setOpen, itemRoles_setOpen]
    refine ⟨_, ?_, settled_quantifier total _⟩
    apply roled_itemBegin (rfl : Role.inSet.isVacant = false) (fun _ _ => trivial) (Or.inr (Or.inl rfl))
    apply suffix_set
  · rw [item_wildcard, itemRoles_wildcard]
    exact ⟨_, .cons (Or.inr (Or.inr rfl)) (roled_quantifier total rest),
      settled_quantifier total rest⟩
  · rw [item_text rest hb, itemRoles_text total rest hb]
    exact ⟨_, (roled_text total hb h).append (roled_quantifier total _),
      settled_quantifier total _⟩

/-- All bytes of the rest of a pattern have roles that suit them. -/
theorem roled_rolesFrom {s : Bytes} (h : Settled vacant s) (total depth : Nat) :
  ∃ vacant', Roled vacant s (rolesFrom total depth s) [] vacant'
  := by
  fun_induction rolesFrom total depth s generalizing vacant with
  | case1 => exact ⟨vacant, .nil _ _⟩
  | @case2 depth b rest scan ih =>
      obtain ⟨vacant', hitem, hsettled⟩ := roled_item _ _ h
      obtain ⟨vacant'', hmore⟩ := ih hsettled
      exact ⟨vacant'', hitem.append hmore⟩

end Scans

/-! ### Vacancy -/

theorem vacantBehind_append (vacant : Bool) (roles roles' : List Role) :
  vacantBehind vacant (roles ++ roles') = vacantBehind (vacantBehind vacant roles) roles'
  := List.foldl_append

theorem vacantBehind_quantifierRoles (s : Bytes) :
  vacantBehind false (quantifierRoles s) = startsQuantifier s
  := (roled_quantifier 0 s).vacantBehind_eq

/-- Right behind an item that can be repeated a place is vacant if there is a quantifier. -/
theorem vacantBehind_itemBegin {role : Role} (h : role.isVacant = false) (vacant : Bool)
    (s t : Bytes) :
  vacantBehind vacant (.itemBegin :: (taken role s t ++ quantifierRoles t)) = startsQuantifier t
  := by
  have htaken : ∀ n, vacantBehind false (List.replicate n role) = false := by
    intro n
    induction n with
    | zero => rfl
    | succ n ih =>
        rw [List.replicate_succ, vacantBehind, List.foldl_cons, h]
        exact ih
  change vacantBehind false (taken role s t ++ quantifierRoles t) = _
  rw [vacantBehind_append, taken, htaken, vacantBehind_quantifierRoles]

/-! ### Which roles there are -/

section Roles

variable {P : Role → Prop}

theorem forall_mem_taken {role : Role} (h : P role) (s t : Bytes) :
  ∀ role' ∈ taken role s t, P role'
  := fun _ hmem => List.eq_of_mem_replicate hmem ▸ h

/-- The roles in a text. -/
theorem forall_mem_textRoles (hescape : P .escape) (hescaped : P .escaped) (hplain : P .plain)
    (total : Nat) (inGroup : Bool) (b : UInt8) (rest : Bytes) :
  ∀ role ∈ textRoles total inGroup b rest, P role
  := by
  have hbyte : ∀ b rest, ∀ role ∈ textByteRoles b rest, P role := by
    intro b rest
    rw [textByteRoles]
    split
    · exact List.forall_mem_cons.mpr ⟨hescape, List.forall_mem_singleton.mpr hescaped⟩
    · exact List.forall_mem_singleton.mpr hplain
  apply List.forall_mem_append.mpr ⟨hbyte b rest, _⟩
  fun_induction moreTextRoles total inGroup (textByte total b rest).rest with
  | case1 => apply List.forall_mem_nil
  | case2 => apply List.forall_mem_nil
  | case3 b rest _ ih => exact List.forall_mem_append.mpr ⟨hbyte b rest, ih⟩

variable (hquantifier : ∀ reps, P (.quantifier reps)) (hcount : P .inCount)

include hquantifier hcount

/-- The roles in a quantifier. -/
theorem forall_mem_quantifierRoles (s : Bytes) :
  ∀ role ∈ quantifierRoles s, P role
  := by
  rw [quantifierRoles]
  split
  · apply List.forall_mem_nil
  · exact List.forall_mem_cons.mpr ⟨hquantifier _, forall_mem_taken hcount _ _⟩

/-- The roles behind the mark that begins an item. -/
theorem forall_mem_quantified {role : Role} (hrole : P role) (s t : Bytes) :
  ∀ role' ∈ taken role s t ++ quantifierRoles t, P role'
  := List.forall_mem_append.mpr
    ⟨forall_mem_taken hrole s t, forall_mem_quantifierRoles hquantifier hcount t⟩

/-- The roles at the end of a branch. -/
theorem forall_mem_branchEndRoles (hbegin : P .branchBegin) (hend : P .branchEnd)
    (hreplacement : P .inReplacement) (total : Nat) (b : UInt8) (rest : Bytes) :
  ∀ role ∈ branchEndRoles total b rest, P role
  := by
  have hfront : ∀ rest', ∀ role ∈ replacementRoles b rest rest', P role := by
    intro rest'
    rw [replacementRoles]
    split
    · exact List.forall_mem_cons.mpr ⟨hend, forall_mem_taken hreplacement _ _⟩
    · apply List.forall_mem_nil
  rw [branchEndRoles]
  apply List.forall_mem_append.mpr ⟨hfront _, _⟩
  split
  · apply List.forall_mem_nil
  · split
    · exact List.forall_mem_singleton.mpr hbegin
    · exact List.forall_mem_cons.mpr ⟨hend, forall_mem_quantifierRoles hquantifier hcount _⟩

end Roles

/-! ### Roles of a source -/

/-- The roles of what is left to a reader are those of the next item and of what is left behind
it. -/
theorem rolesFrom_reader (total : Nat) (r : Reader) (b : UInt8) (rest : Bytes) :
  let scan := item total r.inGroup b rest
  let r' := (r.warn scan.warnings).take (position total (b :: rest)) scan.value
  rolesFrom total r.opened.length (b :: rest) =
    itemRoles total r.inGroup b rest ++ rolesFrom total r'.opened.length scan.rest
  := by
  intro scan r'
  have hin : decide (0 < r.opened.length) = r.inGroup := by
    rw [Reader.inGroup]
    cases r.opened with
    | nil => rfl
    | cons g outer => rfl
  have hopened : r'.opened.length = scan.value.depthBehind r.opened.length :=
    (r.warn scan.warnings).length_opened_take _ _
  rw [rolesFrom, hin, hopened]

/-- Each byte of a source has one role, which suits it. -/
theorem roled_roles (source : Bytes) :
  ∃ vacant, Roled true source (roles source) [] vacant
  := roled_rolesFrom (settled_vacant source) source.length 0

theorem length_roles (source : Bytes) :
  (roles source).length = source.length
  := by
  obtain ⟨vacant, h⟩ := roled_roles source
  exact h.length

/-- Each byte of a source has a role. -/
theorem exists_role {source : Bytes} {pos : Nat} {b : UInt8} {rest : Bytes}
    (h : source.drop pos = b :: rest) :
  ∃ role, (roles source)[pos]? = some role ∧ role.Suits (unpreceded source pos) b rest
  := by
  obtain ⟨vacant, hroled⟩ := roled_roles source
  have hlt : pos < (roles source).length := by
    rw [length_roles]
    have hlength := congrArg List.length h
    rw [List.length_drop, List.length_cons] at hlength
    omega
  refine ⟨_, List.getElem?_eq_getElem hlt, ?_⟩
  obtain ⟨c, t, hdrop, hsuits⟩ := hroled.suits (List.getElem?_eq_getElem hlt)
  obtain ⟨rfl, rfl⟩ := List.cons.inj (hdrop.symm.trans h)
  exact hsuits

end Source

end Respell
