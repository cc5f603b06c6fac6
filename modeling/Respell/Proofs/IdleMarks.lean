import Respell.Proofs.MissingMarks
import Respell.Proofs.Source.Roles

/-!
# Marks that quantify nothing

A mark of a quantifier is idle when it is taken into a text, because nothing in front of it can be
repeated or because it is a brace that begins no count.  There is one warning about each idle mark,
at the place where it stands.

The warning about a brace that begins no count is given by whatever is read in front of it, which
looks for a quantifier.  Therefore such a brace is passed over in silence where nothing in front of
it can be repeated, and there only.
-/

namespace Respell

/-- Where the mark stands of which a warning says that it quantifies nothing. -/
def Warning.idleMark? : Warning → Option Nat
  | malformedCount pos => some pos
  | strayQuantifier pos => some pos
  | _ => none

namespace Source

/-- Where the marks stand of which some warnings say that they quantify nothing, in order. -/
def idleMarks (ws : List Warning) : List Nat := ws.filterMap Warning.idleMark?

theorem idleMarks_append (ws ws' : List Warning) :
  idleMarks (ws ++ ws') = idleMarks ws ++ idleMarks ws'
  := List.filterMap_append

/-- The byte `b`, which has the given role and stands in front of the bytes `rest`, is an idle
mark, but not a brace that is passed over. -/
def Reported (vacant : Bool) (b : UInt8) (rest : Bytes) (role : Role) : Prop :=
  role = .plain ∧ b ∈ Mark.quantifiers ∧
    ¬ (vacant = true ∧ startsMalformedCount (b :: rest) = true)

instance (vacant : Bool) (b : UInt8) (rest : Bytes) (role : Role) :
  Decidable (Reported vacant b rest role)
  := inferInstanceAs (Decidable (_ ∧ _ ∧ _))

/-- Where the idle marks stand that are reported, among bytes with the given roles. -/
def reportedIn (total : Nat) : Bool → Bytes → List Role → List Nat
  | vacant, b :: rest, role :: roles =>
    (if Reported vacant b rest role then [position total (b :: rest)] else []) ++
      reportedIn total role.isVacant rest roles
  | _, _, _ => []

@[simp]
theorem reportedIn_nil (total : Nat) (vacant : Bool) (s : Bytes) :
  reportedIn total vacant s [] = []
  := by
  cases s with
  | nil => rfl
  | cons b rest => rfl

/-- What is reported about some bytes when the bytes in front of them are read. -/
def reportedBefore (total : Nat) (vacant : Bool) (s : Bytes) : List Nat :=
  if vacant then [] else idleMarks (malformedCount total s)

/-! ### Reports and roles -/

section Roles

variable {vacant vacant' : Bool} {total : Nat} {s t rest : Bytes} {roles roles' : List Role}

theorem reportedIn_append (h : Roled vacant s roles t vacant') (total : Nat) :
  reportedIn total vacant s (roles ++ roles') =
    reportedIn total vacant s roles ++ reportedIn total vacant' t roles'
  := by
  induction h with
  | nil => rw [reportedIn_nil, List.nil_append, List.nil_append]
  | cons _ _ ih => rw [List.cons_append, reportedIn, reportedIn, ih, List.append_assoc]

/-- What is not taken into a text is not idle. -/
theorem reportedIn_of_ne_plain (h : ∀ role ∈ roles, role ≠ .plain) (total : Nat) (vacant : Bool)
    (s : Bytes) :
  reportedIn total vacant s roles = []
  := by
  induction roles generalizing vacant s with
  | nil => apply reportedIn_nil
  | cons role roles ih =>
      obtain ⟨hrole, hroles⟩ := List.forall_mem_cons.mp h
      cases s with
      | nil => rfl
      | cons b s => rw [reportedIn, if_neg fun h => hrole h.1, ih hroles, List.nil_append]

theorem reportedIn_quantifierRoles (total : Nat) (vacant : Bool) (s t : Bytes) :
  reportedIn total vacant s (quantifierRoles t) = []
  := by
  apply reportedIn_of_ne_plain
  exact forall_mem_quantifierRoles (fun _ h => Role.noConfusion h) (by decide) t

theorem reportedIn_itemBegin {role : Role} (h : role ≠ .plain) (total : Nat) (vacant : Bool)
    (s t t' : Bytes) :
  reportedIn total vacant s (.itemBegin :: (taken role t t' ++ quantifierRoles t')) = []
  := by
  have hmore := forall_mem_quantified (P := (· ≠ .plain)) (fun _ h => Role.noConfusion h)
    (by decide) h t t'
  have hbegin : Role.itemBegin ≠ .plain := by decide
  exact reportedIn_of_ne_plain (List.forall_mem_cons.mpr ⟨hbegin, hmore⟩) total vacant s

end Roles

/-! ### Scans that look for no quantifier -/

section Scans

variable (total : Nat)

theorem idleMarks_textByte (b : UInt8) (rest : Bytes) :
  idleMarks (textByte total b rest).warnings = []
  := by
  unfold textByte
  split
  · split
    · rfl
    · rfl
  · rfl

theorem idleMarks_textUntil (stops : UInt8 → Bool) (s : Bytes) :
  idleMarks (textUntil total stops s).warnings = []
  := by
  fun_induction textUntil total stops s with
  | case1 => rfl
  | case2 => rfl
  | case3 b rest h first more ih => rw [idleMarks_append, idleMarks_textByte, ih, List.append_nil]

theorem idleMarks_replacement (stops : UInt8 → Bool) (s : Bytes) :
  idleMarks (replacement total stops s).warnings = []
  := by
  cases s with
  | nil => rfl
  | cons b rest =>
      rw [replacement]
      split
      · apply idleMarks_textUntil
      · rfl

theorem idleMarks_members (s : Bytes) :
  idleMarks (members total s).warnings = []
  := by
  fun_induction members total s with
  | case1 s text replaced here rest h more ih =>
      rw [idleMarks_append, idleMarks_append, idleMarks_textUntil, idleMarks_replacement, ih]
      rfl
  | case2 s text replaced here h =>
      rw [idleMarks_append, idleMarks_textUntil, idleMarks_replacement]
      rfl

theorem idleMarks_reference (pos : Nat) (s : Bytes) :
  idleMarks (reference total pos s).warnings = []
  := by
  have hread : idleMarks (nameAndMembers total s).warnings = [] := by
    simp only [nameAndMembers]
    split
    · apply idleMarks_members
    · rfl
  rw [reference]
  split
  · exact hread
  · rw [idleMarks_append, hread]
    rfl

theorem idleMarks_setItem (b : UInt8) (rest : Bytes) :
  idleMarks (setItem total b rest).warnings = []
  := by
  simp only [setItem]
  split
  · split
    · rw [idleMarks_append, idleMarks_textByte, idleMarks_textByte, List.append_nil]
    · apply idleMarks_textByte
  · apply idleMarks_textByte

theorem idleMarks_setItems (pos : Nat) (first : Bool) (s : Bytes) :
  idleMarks (setItems total pos first s).warnings = []
  := by
  fun_induction setItems total pos first s with
  | case1 => rfl
  | case2 => rfl
  | case3 first b rest h item more ih =>
      rw [idleMarks_append, idleMarks_setItem, ih, List.append_nil]

/-! ### Scans that look for a quantifier -/

/-- What a scan that looks for a quantifier reports is about what it leaves. -/
theorem idleMarks_quantifier (s : Bytes) :
  idleMarks (quantifier total s).warnings =
    reportedBefore total (startsQuantifier s) (quantifier total s).rest
  := by
  rw [quantifier, startsQuantifier]
  cases quantifier? s with
  | none => rfl
  | some found => rfl

/-- Unless it is a mark that begins a quantifier, nothing is said about a byte. -/
theorem unquantified_of_not_mem {b : UInt8} (hb : b ∉ Mark.quantifiers) (rest : Bytes) :
  startsQuantifier (b :: rest) = false ∧ startsMalformedCount (b :: rest) = false
  := by
  have hne : ∀ mark ∈ Mark.quantifiers, b ≠ mark := fun mark hmark he => hb (he ▸ hmark)
  obtain ⟨hnone, hbrace⟩ := unquantified_cons hne rest
  rw [startsMalformedCount, startsQuantifier, hnone, decide_eq_false hbrace]
  exact ⟨rfl, rfl⟩

/-- A mark that begins no quantifier is a brace. -/
theorem startsMalformedCount_of_mem {b : UInt8} (hb : b ∈ Mark.quantifiers) {rest : Bytes}
    (h : startsQuantifier (b :: rest) = false) :
  startsMalformedCount (b :: rest) = true
  := by
  simp only [Mark.quantifiers, List.mem_cons, List.not_mem_nil, or_false] at hb
  rcases hb with rfl | rfl | rfl | rfl
  · cases h
  · cases h
  · cases h
  · rw [startsMalformedCount, h]
    rfl

/-- About the first byte of a text it is reported that it begins a quantifier, when it does.  When
it begins no count, this was reported before. -/
theorem reportedIn_textByte (vacant : Bool) (b : UInt8) (rest : Bytes) :
  reportedIn total vacant (b :: rest) (textByteRoles b rest) =
    reportedBefore total vacant (b :: rest) ++ idleMarks (strayQuantifier total (b :: rest))
  := by
  rw [reportedBefore, malformedCount, strayQuantifier]
  by_cases hb : b ∈ Mark.quantifiers
  · have hescape : b ≠ Mark.escape := fun h => absurd (h ▸ hb) (by decide)
    rw [textByteRoles, if_neg fun h => hescape h.1, reportedIn, reportedIn_nil, List.append_nil]
    cases hstarts : startsQuantifier (b :: rest) with
    | true =>
        have hcount : startsMalformedCount (b :: rest) = false := by
          rw [startsMalformedCount, hstarts, Bool.not_true, Bool.and_false]
        rw [hcount, if_pos ⟨rfl, hb, fun h => Bool.false_ne_true (hcount ▸ h.2)⟩]
        cases vacant with
        | false => rfl
        | true => rfl
    | false =>
        have hcount := startsMalformedCount_of_mem hb hstarts
        rw [hcount]
        cases vacant with
        | false =>
            rw [if_pos ⟨rfl, hb, fun h => Bool.false_ne_true h.1⟩]
            rfl
        | true =>
            rw [if_neg fun h => h.2.2 ⟨rfl, hcount⟩]
            rfl
  · obtain ⟨hstarts, hcount⟩ := unquantified_of_not_mem hb rest
    have hnone : reportedIn total vacant (b :: rest) (textByteRoles b rest) = [] := by
      rw [textByteRoles]
      split
      · apply reportedIn_of_ne_plain
        decide
      · rw [reportedIn, if_neg fun h => hb h.2.1, reportedIn_nil]
        rfl
    rw [hnone, hstarts, hcount]
    cases vacant with
    | false => rfl
    | true => rfl

/-- In a run of text all idle marks are braces, and each of them is reported. -/
theorem reportedIn_moreText (inGroup : Bool) (s : Bytes) :
  reportedIn total false s (moreTextRoles total inGroup s) =
    idleMarks (moreText total inGroup s).warnings
  := by
  fun_induction moreText total inGroup s with
  | case1 =>
      rw [moreTextRoles]
      rfl
  | case2 b rest h =>
      rw [moreTextRoles, if_pos h]
      rfl
  | case3 b rest h first more ih =>
      obtain ⟨hb, hstarts⟩ := not_begins_of_not_ends h
      have hstray : idleMarks (strayQuantifier total (b :: rest)) = [] := by
        rw [strayQuantifier, hstarts]
        rfl
      rw [moreTextRoles, if_neg h,
        reportedIn_append (roled_textByte total hb fun _ => hstarts), ih,
        reportedIn_textByte, hstray, List.append_nil, idleMarks_append, idleMarks_append,
        idleMarks_textByte, List.append_nil]
      rfl

/-! ### Items -/

theorem reportedBefore_nil (vacant : Bool) :
  reportedBefore total vacant [] = []
  := by
  cases vacant with
  | false => rfl
  | true => rfl

theorem reportedBefore_of_not_mem {b : UInt8} (hb : b ∉ Mark.quantifiers) (vacant : Bool)
    (rest : Bytes) :
  reportedBefore total vacant (b :: rest) = []
  := by
  rw [reportedBefore, malformedCount, (unquantified_of_not_mem hb rest).2]
  cases vacant with
  | false => rfl
  | true => rfl

/-- What is reported when a branch ends is about what follows the group that ends with it. -/
theorem idleMarks_branchEnd (vacant : Bool) (b : UInt8) (rest : Bytes) :
  idleMarks (branchEnd total b rest).warnings =
    reportedBefore total (vacantBehind vacant (branchEndRoles total b rest))
      (branchEnd total b rest).rest
  := by
  have hidle := idleMarks_replacement total Mark.endsBranchReplacement (b :: rest)
  rw [branchEndRoles]
  generalize hreplaced : replacement total Mark.endsBranchReplacement (b :: rest) = replaced
    at hidle
  rw [vacantBehind_append]
  cases hrest : replaced.rest with
  | nil => rw [branchEnd_of_nil hreplaced hrest, hidle, reportedBefore_nil]
  | cons d t =>
      by_cases hd : d = Mark.comma
      · rw [branchEnd_of_comma hreplaced (hd ▸ hrest), hidle]
        dsimp only
        rw [if_pos hd]
        rfl
      · rw [branchEnd_of_cons hreplaced hrest hd]
        dsimp only
        rw [if_neg hd, idleMarks_append, hidle, List.nil_append, idleMarks_quantifier,
          ← vacantBehind_quantifierRoles]
        rfl

/-- The reports about an item, together with those that were given before, are about the idle
marks of the item, together with those that are given before the next one. -/
theorem idleMarks_item (total : Nat) (inGroup : Bool) {vacant : Bool} {b : UInt8} {rest : Bytes}
    (h : Settled vacant (b :: rest)) :
  reportedBefore total vacant (b :: rest) ++ idleMarks (item total inGroup b rest).warnings =
    reportedIn total vacant (b :: rest) (itemRoles total inGroup b rest) ++
      reportedBefore total (vacantBehind vacant (itemRoles total inGroup b rest))
        (item total inGroup b rest).rest
  := by
  rcases item_cases inGroup b with hb | rfl | rfl | rfl | rfl | hb
  · have hmark : b ∉ Mark.quantifiers := by
      have hends := ((Bool.and_eq_true _ _).mp hb).2
      simp only [Mark.endsBranch, Bool.or_eq_true, decide_eq_true_eq] at hends
      rcases hends with (rfl | rfl) | rfl
      all_goals decide
    have hroles := forall_mem_branchEndRoles (P := (· ≠ .plain))
      (fun _ h => Role.noConfusion h) (by decide) (by decide) (by decide) (by decide) total b rest
    rw [item_end rest hb, itemRoles, if_pos hb, reportedBefore_of_not_mem total hmark,
      reportedIn_of_ne_plain hroles, idleMarks_branchEnd]
  · have hroles : ∀ role ∈ [Role.branchBegin], role ≠ .plain := by decide
    rw [item_groupOpen, itemRoles_groupOpen, reportedBefore_of_not_mem total (by decide),
      reportedIn_of_ne_plain hroles]
    rfl
  · rw [item_classOpen, itemRoles_classOpen, reportedBefore_of_not_mem total (by decide)]
    dsimp only
    rw [reportedIn_itemBegin (by decide), vacantBehind_itemBegin rfl,
      idleMarks_append, idleMarks_reference, idleMarks_quantifier]
    rfl
  · rw [item_setOpen, itemRoles_setOpen, reportedBefore_of_not_mem total (by decide)]
    dsimp only
    rw [reportedIn_itemBegin (by decide), vacantBehind_itemBegin rfl,
      idleMarks_append, set, idleMarks_setItems, idleMarks_quantifier]
    rfl
  · have hroles : ∀ role ∈ Role.itemBegin :: quantifierRoles rest, role ≠ .plain :=
      List.forall_mem_cons.mpr ⟨by decide,
        forall_mem_quantifierRoles (fun _ h => Role.noConfusion h) (by decide) rest⟩
    rw [item_wildcard, itemRoles_wildcard, reportedBefore_of_not_mem total (by decide),
      reportedIn_of_ne_plain hroles, idleMarks_quantifier, ← vacantBehind_quantifierRoles]
    rfl
  · have hmore := roled_text total hb h
    rw [item_text rest hb, itemRoles_text total rest hb, reportedIn_append hmore,
      reportedIn_quantifierRoles, vacantBehind_append,
      hmore.vacantBehind_eq, vacantBehind_quantifierRoles, textRoles,
      reportedIn_append (roled_textByte total hb.2 h), reportedIn_textByte,
      reportedIn_moreText]
    dsimp only [textNodes, text]
    rw [idleMarks_append, idleMarks_append, idleMarks_append, idleMarks_textByte,
      idleMarks_quantifier]
    simp only [List.append_nil, List.append_assoc]

/-! ### Readers -/

theorem idleMarks_added (r : Reader) (pos : Nat) (i : Item) :
  idleMarks (r.added pos i) = []
  := by
  rw [Reader.added.eq_def]
  split
  · split
    · rfl
    · rfl
  · cases r.opened with
    | nil => rfl
    | cons g outer => rfl
  · rfl

theorem idleMarks_unclosed (r : Reader) :
  idleMarks r.unclosed = []
  := by
  apply List.filterMap_eq_nil_iff.mpr
  intro w hw
  obtain ⟨g, -, rfl⟩ := List.mem_map.mp hw
  rfl

/-- What a reader reports from a place on is about the idle marks behind it, after those that were
reported before. -/
theorem idleMarks_read {vacant : Bool} {s : Bytes} (hs : Settled vacant s) (r : Reader)
    (before : List Nat) (hr : idleMarks r.warnings = before ++ reportedBefore total vacant s) :
  idleMarks (r.read total s).warnings =
    before ++ reportedIn total vacant s (rolesFrom total r.opened.length s)
  := by
  fun_induction Reader.read total r s generalizing vacant before with
  | case1 r =>
      rw [Reader.warnings_finish, idleMarks_append, hr, idleMarks_unclosed, reportedBefore_nil,
        rolesFrom, reportedIn_nil, List.append_nil]
  | @case2 r b rest scan ih =>
      obtain ⟨vacant', hroled, hsettled⟩ := roled_item total r.inGroup hs
      have hitem := idleMarks_item total r.inGroup hs
      rw [hroled.vacantBehind_eq] at hitem
      rw [rolesFrom_reader, reportedIn_append hroled, ← List.append_assoc]
      apply ih hsettled _
      rw [Reader.warnings_take, idleMarks_append, idleMarks_added, List.append_nil, Reader.warn,
        idleMarks_append, hr, List.append_assoc, hitem, List.append_assoc]

/-! ### Counting -/

theorem le_of_mem_reportedIn {vacant : Bool} {s : Bytes} {roles : List Role} {pos : Nat}
    (h : pos ∈ reportedIn total vacant s roles) :
  position total s ≤ pos
  := by
  fun_induction reportedIn total vacant s roles with
  | case1 vacant b rest role roles ih =>
      have hle : position total (b :: rest) ≤ position total rest :=
        Nat.sub_le_sub_left (Nat.le_succ _) total
      rcases List.mem_append.mp h with hfirst | hmore
      · split at hfirst
        · exact Nat.le_of_eq (List.mem_singleton.mp hfirst).symm
        · cases hfirst
      · exact hle.trans (ih hmore)
  | case2 => cases h

/-- What is reported is reported once. -/
theorem count_reportedIn {vacant vacant' : Bool} {s t : Bytes} {roles : List Role}
    (h : Roled vacant s roles t vacant') (hs : s.length ≤ total) {i : Nat} {role : Role}
    (hi : roles[i]? = some role) :
  ∃ b rest, s.drop i = b :: rest ∧
    (reportedIn total vacant s roles).count (position total s + i) =
      if Reported (vacantBehind vacant (roles.take i)) b rest role then 1 else 0
  := by
  induction h generalizing i with
  | nil => cases hi
  | @cons vacant vacant' b s t first roles _ hmore ih =>
      rw [List.length_cons] at hs
      have hnext : position total s = position total (b :: s) + 1 := by
        rw [position, position, List.length_cons]
        omega
      rw [reportedIn, List.count_append]
      cases i with
      | zero =>
          obtain rfl := Option.some.inj hi
          have hmore : (reportedIn total first.isVacant s roles).count (position total (b :: s)) =
              0 := by
            apply List.count_eq_zero.mpr
            intro hmem
            have hle := le_of_mem_reportedIn total hmem
            omega
          refine ⟨b, s, rfl, ?_⟩
          rw [Nat.add_zero, hmore, Nat.add_zero]
          change _ = if Reported vacant b s first then 1 else 0
          split
          · apply List.count_singleton_self
          · rfl
      | succ i =>
          obtain ⟨c, rest, hdrop, hcount⟩ := ih (Nat.le_of_succ_le hs) hi
          have hfirst : (if Reported vacant b s first then [position total (b :: s)]
              else []).count (position total (b :: s) + (i + 1)) = 0 := by
            apply List.count_eq_zero.mpr
            split
            · intro hmem
              have heq := List.mem_singleton.mp hmem
              omega
            · apply List.not_mem_nil
          refine ⟨c, rest, hdrop, ?_⟩
          rw [hfirst, Nat.zero_add, ← Nat.add_assoc, Nat.add_right_comm, ← hnext]
          exact hcount

end Scans

end Source

namespace Reading

/-- The idle marks that are reported are those among all bytes of the source. -/
theorem idleMarks_ofSource (source : Bytes) (lexicon : Lexicon) :
  Source.idleMarks (ofSource source lexicon).warnings =
    Source.reportedIn source.length true source (Source.roles source)
  := Source.idleMarks_read source.length (Source.settled_vacant source) (.start lexicon) [] rfl

/-- A byte that marks a quantifier, is not escaped, stands outside of sets, references and
replacements and belongs to no quantifier is taken into a text.  There is exactly one warning about
it at its place, that it quantifies nothing or that it begins no count, unless it is a brace which
begins no count and nothing in front of it can be repeated.  Then there is none. -/
theorem count_idleMarks (source : Bytes) (lexicon : Lexicon) {pos : Nat} {b : UInt8}
    (hpos : source[pos]? = some b) (hb : b ∈ Mark.quantifiers) :
  ∃ role, (Source.roles source)[pos]? = some role ∧
    (role.isOpen = true → role.quantifies = false →
      role = .plain ∧
      (Source.idleMarks (ofSource source lexicon).warnings).count pos =
        if Source.unpreceded source pos ∧ Source.startsMalformedCount (source.drop pos) then 0
        else 1)
  := by
  obtain ⟨rest, hdrop⟩ : ∃ rest, source.drop pos = b :: rest := by
    rw [← List.head?_drop] at hpos
    exact List.head?_eq_some_iff.mp hpos
  obtain ⟨role, hrole, hsuits⟩ := Source.exists_role hdrop
  refine ⟨role, hrole, ?_⟩
  intro hopen hquantifies
  have hplain : role = .plain := by
    rcases hsuits.plain_or_quantifier hopen hb with hplain | ⟨reps, rfl⟩
    · exact hplain
    · cases hquantifies
  refine ⟨hplain, ?_⟩
  obtain ⟨vacant, hroled⟩ := Source.roled_roles source
  obtain ⟨c, rest', hdrop', hcount⟩ :=
    Source.count_reportedIn source.length hroled (Nat.le_refl _) hrole
  obtain ⟨rfl, rfl⟩ := List.cons.inj (hdrop.symm.trans hdrop')
  have hreported : Source.Reported (Source.unpreceded source pos) b rest role ↔
      ¬ (Source.unpreceded source pos = true ∧ Source.startsMalformedCount (b :: rest) = true) :=
    ⟨fun h => h.2.2, fun h => ⟨hplain, hb, h⟩⟩
  rw [Source.position, Nat.sub_self, Nat.zero_add] at hcount
  change _ = if Source.Reported (Source.unpreceded source pos) b rest role then 1 else 0 at hcount
  rw [idleMarks_ofSource, hdrop, hcount, if_congr hreported rfl rfl, ite_not]

/-- A star behind a quantifier, which repeats the byte in front of it, is reported. -/
theorem count_idleMarks_of_star :
  let source := Utf8.encode "a\x7bx+*"
  source[4]? = some Mark.star ∧ Mark.star ∈ Mark.quantifiers ∧
    ∃ role, (Source.roles source)[4]? = some role ∧ role = .plain ∧
      (Source.idleMarks (ofSource source .empty).warnings).count 4 = 1
  := by
  intro source
  have hpos : source[4]? = some Mark.star := by decide +kernel
  have hb : Mark.star ∈ Mark.quantifiers := by decide
  obtain ⟨role, hrole, hidle⟩ := count_idleMarks source .empty hpos hb
  have hroles : (Source.roles source)[4]? = some .plain := by decide +kernel
  obtain rfl := Option.some.inj (hroles.symm.trans hrole)
  obtain ⟨hplain, hcount⟩ := hidle rfl rfl
  rw [if_neg (by decide +kernel)] at hcount
  exact ⟨hpos, hb, .plain, hrole, hplain, hcount⟩

/-- Not every idle mark is reported: a brace that begins no count is passed over in silence where
the pattern begins with it. -/
theorem not_count_idleMarks_eq_one :
  ¬ ∀ (source : Bytes) (lexicon : Lexicon) (pos : Nat) (b : UInt8), source[pos]? = some b →
    b ∈ Mark.quantifiers → ∀ role ∈ (Source.roles source)[pos]?, role.isOpen = true →
      role.quantifies = false →
      (Source.idleMarks (ofSource source lexicon).warnings).count pos = 1
  := by
  intro h
  have hone := h (Utf8.encode "\x7bx") .empty 0 Mark.countOpen (by decide +kernel) (by decide)
    .plain (by decide +kernel) rfl rfl
  have hzero : (Source.idleMarks (ofSource (Utf8.encode "\x7bx") .empty).warnings).count 0 = 0 := by
    decide +kernel
  rw [hzero] at hone
  cases hone

end Reading

end Respell
