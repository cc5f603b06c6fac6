import Respell.Proofs.ByteSet
import Respell.Proofs.Source.Printed
import Respell.Proofs.Source.Roles
import Respell.Text.Utf8

/-!
# Sets in a source

A set means what its items say.  Wherever an item of a pattern may begin, the items of a set that
are written in square brackets, with their bytes behind escape marks, are read as the set of all
bytes that one of them covers in either case, or as its complement.  A reader comes to the opening
bracket, takes the set as one node and goes on behind the closing bracket.
-/

namespace Respell

/-! ### What items cover -/

namespace Byte

theorem mem_between {low high b : UInt8} :
  b ∈ between low high ↔ low ≤ b ∧ b ≤ high
  := by
  have hlt := b.toNat_lt
  rw [between, List.mem_map, UInt8.le_iff_toNat_le, UInt8.le_iff_toNat_le]
  constructor
  · rintro ⟨n, hn, rfl⟩
    have hhigh := high.toNat_lt
    rw [List.mem_range'_1] at hn
    have hn256 : n < 256 := by omega
    rw [UInt8.toNat_ofNat_of_lt' hn256]
    omega
  · rintro ⟨hlow, hhigh⟩
    refine ⟨b.toNat, ?_, UInt8.ofNat_toNat⟩
    rw [List.mem_range'_1]
    omega

end Byte

/-- The item of a set says that the byte belongs to it. -/
def SetItem.Covers (b : UInt8) : SetItem → Prop
  | single a => b = a
  | interval one other => min one other ≤ b ∧ b ≤ max one other

instance (b : UInt8) : (item : SetItem) → Decidable (item.Covers b)
  | .single a => inferInstanceAs (Decidable (b = a))
  | .interval _ _ => inferInstanceAs (Decidable (_ ∧ _))

/-- One of the items covers the byte in one of its cases. -/
def SetItem.CoveredBy (items : List SetItem) (b : UInt8) : Prop :=
  ∃ item ∈ items, ∃ c ∈ [b, Byte.lower b, Byte.upper b], item.Covers c

instance (items : List SetItem) (b : UInt8) : Decidable (SetItem.CoveredBy items b) :=
  inferInstanceAs (Decidable (∃ item ∈ items, ∃ c ∈ [b, Byte.lower b, Byte.upper b], item.Covers c))

namespace ByteSet

theorem contains_insertItem (s : ByteSet) (item : SetItem) (b : UInt8) :
  (s.insertItem item).contains b = true ↔
    s.contains b = true ∨ ∃ c ∈ [b, Byte.lower b, Byte.upper b], item.Covers c
  := by
  have hcase : ∀ c, c ∈ [b, Byte.lower b, Byte.upper b] ↔ Byte.lower b = Byte.lower c := by
    intro c
    rw [eq_comm (a := Byte.lower b), Byte.lower_eq_lower_iff]
    simp only [List.mem_cons, List.not_mem_nil, or_false]
  simp only [hcase]
  cases item with
  | single a =>
      rw [insertItem, contains_insertBothCases]
      simp only [SetItem.Covers, exists_eq_right]
  | interval one other =>
      rw [insertItem, contains_insertBetween]
      simp only [SetItem.Covers, Byte.mem_between, and_comm]

/-- The members of a set are the bytes that its items cover in one case or the other, or else the
bytes that they do not. -/
theorem contains_ofItems (negated : Bool) (items : List SetItem) (b : UInt8) :
  (ofItems negated items).contains b = true ↔
    if negated then ¬ SetItem.CoveredBy items b else SetItem.CoveredBy items b
  := by
  have hitems : ∀ s : ByteSet, (items.foldl insertItem s).contains b = true ↔
      s.contains b = true ∨ SetItem.CoveredBy items b := by
    induction items with
    | nil => simp [SetItem.CoveredBy]
    | cons item items ih =>
        intro s
        rw [List.foldl_cons, ih, contains_insertItem, or_assoc]
        simp only [SetItem.CoveredBy, List.mem_cons, exists_eq_or_imp]
  have hempty := hitems empty
  rw [contains_empty] at hempty
  simp only [Bool.false_eq_true, false_or] at hempty
  rw [ofItems]
  cases negated with
  | true =>
      rw [if_pos rfl, if_pos rfl, contains_complement, Bool.not_eq_true', ← hempty,
        Bool.not_eq_true]
  | false => exact hempty

end ByteSet

namespace Source

/-! ### Where items begin -/

/-- Item by item a reader comes from one place of a pattern to another. -/
inductive Reader.Comes (total : Nat) : Reader → Bytes → Reader → Bytes → Prop
  | here (r : Reader) (s : Bytes) : Comes total r s r s
  | item {r r' : Reader} {b : UInt8} {rest s : Bytes}
      (h : Comes total
        ((r.warn (item total r.inGroup b rest).warnings).take (position total (b :: rest))
          (item total r.inGroup b rest).value)
        (item total r.inGroup b rest).rest r' s) :
      Comes total r (b :: rest) r' s

/-- It does not matter to the reading where one looks at it. -/
theorem Reader.Comes.read_eq {total : Nat} {r r' : Reader} {s s' : Bytes}
    (h : r.Comes total s r' s') :
  r.read total s = r'.read total s'
  := by
  induction h with
  | here => rfl
  | item _ ih =>
      rw [Reader.read]
      exact ih

/-- An item begins in front of its bytes and nowhere else. -/
theorem eq_zero_of_itemBegin {total i : Nat} {inGroup : Bool} {b : UInt8} {rest : Bytes}
    (h : (itemRoles total inGroup b rest)[i]? = some .itemBegin) :
  i = 0
  := by
  have hnone : ∀ {roles : List Role}, (∀ role ∈ roles, role ≠ Role.itemBegin) → ∀ i,
      roles[i]? ≠ some Role.itemBegin :=
    fun hroles i h => hroles _ (List.mem_of_getElem? h) rfl
  have hfirst : ∀ {roles : List Role}, (∀ role ∈ roles, role ≠ Role.itemBegin) →
      (Role.itemBegin :: roles)[i]? = some .itemBegin → i = 0 := by
    intro roles hroles h
    cases i with
    | zero => rfl
    | succ i => exact absurd h (hnone hroles i)
  have hquantifier : ∀ reps, Role.quantifier reps ≠ .itemBegin := fun _ h => Role.noConfusion h
  have hcount : Role.inCount ≠ .itemBegin := by decide
  rcases item_cases inGroup b with hb | rfl | rfl | rfl | rfl | hb
  · rw [itemRoles, if_pos hb] at h
    have hroles := forall_mem_branchEndRoles (P := (· ≠ .itemBegin)) hquantifier hcount
      (by decide) (by decide) (by decide) total b rest
    exact absurd h (hnone hroles i)
  · rw [itemRoles_groupOpen] at h
    exact absurd h (hnone (by decide) i)
  · rw [itemRoles_classOpen] at h
    exact hfirst (forall_mem_quantified hquantifier hcount (by decide) _ _) h
  · rw [itemRoles_setOpen] at h
    exact hfirst (forall_mem_quantified hquantifier hcount (by decide) _ _) h
  · rw [itemRoles_wildcard] at h
    exact hfirst (forall_mem_quantifierRoles hquantifier hcount _) h
  · rw [itemRoles_text total rest hb] at h
    have htext := forall_mem_textRoles (P := (· ≠ .itemBegin)) (by decide) (by decide) (by decide)
      total inGroup b rest
    have hmore := forall_mem_quantifierRoles (P := (· ≠ .itemBegin)) hquantifier hcount
      (text total inGroup b rest).rest
    exact absurd h (hnone (List.forall_mem_append.mpr ⟨htext, hmore⟩) i)

/-- A reader comes to every place where an item begins with a mark of its own. -/
theorem Reader.exists_comes {total : Nat} {vacant : Bool} {s : Bytes} (hs : Settled vacant s)
    (r : Reader) {i : Nat} (hi : (rolesFrom total r.opened.length s)[i]? = some .itemBegin) :
  ∃ r', r.Comes total s r' (s.drop i)
  := by
  fun_induction Reader.read total r s generalizing vacant i with
  | case1 r =>
      rw [rolesFrom] at hi
      cases hi
  | @case2 r b rest scan ih =>
      obtain ⟨vacant', hroled, hsettled⟩ := roled_item total r.inGroup hs
      rw [rolesFrom_reader] at hi
      by_cases hlt : i < (itemRoles total r.inGroup b rest).length
      · rw [List.getElem?_append_left hlt] at hi
        rw [eq_zero_of_itemBegin hi]
        exact ⟨r, .here r _⟩
      · rw [List.getElem?_append_right (Nat.le_of_not_lt hlt)] at hi
        obtain ⟨r', hcomes⟩ := ih hsettled hi
        have hdrop : scan.rest.drop (i - (itemRoles total r.inGroup b rest).length) =
            (b :: rest).drop i := by
          rw [show scan.rest = (item total r.inGroup b rest).rest from rfl, ← hroled.drop,
            List.drop_drop, Nat.add_sub_cancel' (Nat.le_of_not_lt hlt)]
        rw [hdrop] at hcomes
        exact ⟨r', .item hcomes⟩

/-- An opening bracket that is not escaped and does not stand inside of something begins an item. -/
theorem Role.Suits.eq_itemBegin {role : Role} {vacant : Bool} {rest : Bytes}
    (h : role.Suits vacant Mark.setOpen rest) (hopen : role.isOpen = true) :
  role = .itemBegin
  := by
  cases role with
  | itemBegin => rfl
  | plain => exact absurd h.1 (by decide)
  | quantifier reps =>
      obtain ⟨-, t, hcount⟩ := h
      cases hcount
  | branchBegin => exact h.elim (absurd · (by decide)) (absurd · (by decide))
  | branchEnd => exact h.elim (absurd · (by decide)) (absurd · (by decide))
  | inCount =>
      rcases h with h | h | h
      all_goals exact absurd h (by decide)
  | escape =>
      have hmark : Mark.setOpen = Mark.escape := h
      exact absurd hmark (by decide)
  | _ => cases hopen

/-- A set that is written out is one item, together with the quantifier behind it. -/
theorem exists_item_set (total : Nat) (negated : Bool) (first : SetItem) (more : List SetItem)
    (post : Bytes) :
  ∃ rest, (Draft.Atom.set negated first more).print ++ post = Mark.setOpen :: rest ∧
    ∀ inGroup, item total inGroup Mark.setOpen rest =
      let reps := quantifier total post
      ⟨.nodes [.leaf (.set (.ofItems negated (first :: more))) reps.value], reps.rest,
        reps.warnings⟩
  := by
  have hprint : (Draft.Atom.set negated first more).print ++ post =
      Mark.setOpen :: ((if negated then [Mark.negate] else []) ++
        ((first :: more).flatMap Draft.printItem ++ Mark.setClose :: post)) := by
    rw [Draft.Atom.print, List.cons_append, List.append_assoc, List.append_assoc]
    rfl
  refine ⟨_, hprint, ?_⟩
  intro inGroup
  rw [item_setOpen, set_printed]
  rfl

/-- What a reader has read. -/
def Reader.reading (r : Reader) : Reading := ⟨⟨r.chain, r.groups⟩, r.warnings, r.lexicon⟩

end Source

namespace Reading

/-- A set in a source, around which an item may begin, is read as one node.  A reader comes to it,
and goes on behind it and its quantifier without a warning about it.  The set has the bytes that
its items cover in one case or the other, or those that they do not. -/
theorem ofSource_set {source pre post : Bytes} {negated : Bool} {first : SetItem}
    {more : List SetItem}
    (hsource : source = pre ++ ((Draft.Atom.set negated first more).print ++ post))
    {role : Source.Role} (hrole : (Source.roles source)[pre.length]? = some role)
    (hopen : role.isOpen = true) (lexicon : Lexicon) :
  let reps := Source.quantifier source.length post
  ∃ r set,
    (Source.Reader.start lexicon).Comes source.length source r
      ((Draft.Atom.set negated first more).print ++ post) ∧
    ofSource source lexicon =
      (((r.warn reps.warnings).append [.leaf (.set set) reps.value]).read source.length
        reps.rest).reading ∧
    ∀ b, set.contains b = true ↔
      if negated then ¬ SetItem.CoveredBy (first :: more) b else SetItem.CoveredBy (first :: more) b
  := by
  intro reps
  obtain ⟨rest, hprint, hitem⟩ := Source.exists_item_set source.length negated first more post
  have hdrop : source.drop pre.length = Mark.setOpen :: rest := by
    rw [hsource, List.drop_left, hprint]
  obtain ⟨role', hrole', hsuits⟩ := Source.exists_role hdrop
  obtain rfl := Option.some.inj (hrole.symm.trans hrole')
  rw [hsuits.eq_itemBegin hopen] at hrole
  obtain ⟨r, hcomes⟩ :=
    (Source.Reader.start lexicon).exists_comes (Source.settled_vacant source) hrole
  rw [hdrop, ← hprint] at hcomes
  refine ⟨r, .ofItems negated (first :: more), hcomes, ?_, ByteSet.contains_ofItems negated _⟩
  have hread := hcomes.read_eq
  rw [hprint, Source.Reader.read, hitem] at hread
  exact congrArg Source.Reader.reading hread

/-- In a group, behind a text, a complement.  The ends of the interval are in reverse order, and
small letters are covered as capital ones. -/
theorem ofSource_set_of_complement :
  let source := Utf8.encode "a(b[^%Z-%A%]]*c)"
  let reps := Source.quantifier source.length (Utf8.encode "*c)")
  (Source.roles source)[3]? = some .itemBegin ∧ Source.Role.itemBegin.isOpen = true ∧
    ∃ r set,
      (Source.Reader.start .empty).Comes source.length source r (Utf8.encode "[^%Z-%A%]]*c)") ∧
      ofSource source .empty =
        (((r.warn reps.warnings).append [.leaf (.set set) reps.value]).read source.length
          reps.rest).reading ∧
      set.contains 'm'.toUInt8 = false ∧ set.contains ']'.toUInt8 = false ∧
      set.contains '['.toUInt8 = true
  := by
  intro source reps
  have hsource : source = Utf8.encode "a(b" ++
      ((Draft.Atom.set true (.interval 'Z'.toUInt8 'A'.toUInt8) [.single ']'.toUInt8]).print ++
        Utf8.encode "*c)") := by
    decide +kernel
  have hrole : (Source.roles source)[3]? = some .itemBegin := by decide +kernel
  obtain ⟨r, set, hcomes, hread, hset⟩ := ofSource_set hsource hrole rfl .empty
  refine ⟨hrole, rfl, r, set, hcomes, hread, ?_, ?_, ?_⟩
  · exact Bool.eq_false_iff.mpr fun h => absurd ((hset _).mp h) (by decide)
  · exact Bool.eq_false_iff.mpr fun h => absurd ((hset _).mp h) (by decide)
  · exact (hset _).mpr (by decide)

end Reading

end Respell
