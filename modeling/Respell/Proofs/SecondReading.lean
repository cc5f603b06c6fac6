import Respell.Proofs.Lexicon.History

/-!
# Reading a source for the second time

A source that was read before says nothing new.  Its names have classes, and these classes have
members that are the same as those given in the source, so that every member is refused as a
duplicate.  The reader therefore leaves the lexicon as it is, and since names keep their ids it
reads the same pattern with the same warnings.
-/

namespace Respell

/-! ### Members that a class has -/

namespace NamedClass

variable {c c' : NamedClass} {m : Member} {text : Bytes}

/-- A class that is only added to keeps the texts that it has. -/
theorem GrowsTo.has (h : c.GrowsTo c') (hhas : c.has text = true) :
  c'.has text = true
  := by
  obtain ⟨m, hm, hsame⟩ := (c.has_iff text).mp hhas
  apply (c'.has_iff text).mpr
  use m, h.members.subset hm
  rwa [h.casing]

/-- A member that is refused changes nothing. -/
theorem add_of_has (h : c.has m.text = true) :
  (c.add m).2 = c
  := by
  rw [add, if_pos h]

/-- Whether a member is put among the others or refused, the class has its text then. -/
theorem has_add_self (c : NamedClass) (m : Member) :
  (c.add m).2.has m.text = true
  := by
  rw [add]
  split
  · next h => exact h
  · obtain ⟨before, after, -, hplace, -⟩ := place_eq c.casing m c.members
    apply (has_iff _ _).mpr
    use m
    dsimp only
    rw [hplace]
    exact ⟨List.mem_append_right before List.mem_cons_self, Casing.same_iff.mpr rfl⟩

theorem growsTo_foldl_add (members : List Member) (c : NamedClass) :
  c.GrowsTo (members.foldl (fun c m => (c.add m).2) c)
  := by
  induction members generalizing c with
  | nil => apply GrowsTo.refl
  | cons m ms ih => apply (c.growsTo_add m).trans (ih _)

theorem has_foldl_add {members : List Member} (hm : m ∈ members) (c : NamedClass) :
  (members.foldl (fun c m => (c.add m).2) c).has m.text = true
  := by
  induction members generalizing c with
  | nil => cases hm
  | cons n ms ih =>
      rcases List.mem_cons.mp hm with rfl | hm
      · apply (growsTo_foldl_add ms _).has (c.has_add_self m)
      · apply ih hm

end NamedClass

/-! ### References that say nothing new -/

namespace Lexicon

variable {l l' : Lexicon} {name : Bytes} {id : ClassId} {ref : Source.Reference}

/-- The class that is referred to is there, and it has the texts of all members given there. -/
def Knows (l : Lexicon) (ref : Source.Reference) : Prop :=
  ∃ id c, l.idOf? ref.name = some id ∧ l.get? id = some c ∧
    ∀ m ∈ ref.members, c.has m.text = true

/-- What is known stays known when names are put behind the others and members among them. -/
theorem Knows.ofGrowth (hnames : l.names <+: l'.names) (hgrows : l.GrowsTo l') (h : l.Knows ref) :
  l'.Knows ref
  := by
  obtain ⟨id, c, hid, hc, hmembers⟩ := h
  obtain ⟨c', hc', hcc'⟩ := hgrows id c hc
  exact ⟨id, c', idOf?_of_more hnames hid, hc', fun m hm => hcc'.has (hmembers m hm)⟩

/-- A reference that was made is known. -/
theorem knows_declare (l : Lexicon) (ref : Source.Reference) :
  (l.declare ref).Knows ref
  := by
  use l.idOf ref.name, ref.members.foldl (fun c m => (c.add m).2) (l.classOf ref.name)
  refine ⟨idOf?_of_more (l.names_prefix_declare ref) (l.idOf?_intern ref.name), ?_, ?_⟩
  · rw [get?_declare, get?_intern, if_pos rfl, Option.map_some, if_pos rfl]
  · exact fun m hm => NamedClass.has_foldl_add hm _

/-- All references that were made are known in the end. -/
theorem knows_foldl_declare {refs : List Source.Reference} (h : ref ∈ refs) (l : Lexicon) :
  (refs.foldl declare l).Knows ref
  := by
  induction refs generalizing l with
  | nil => cases h
  | cons first refs ih =>
      rcases List.mem_cons.mp h with rfl | h
      · apply (l.knows_declare ref).ofGrowth (names_prefix_foldl_declare _ refs)
        apply growsTo_foldl_declare
      · apply ih h

/-- A change that leaves the class at the id as it is leaves the lexicon as it is. -/
theorem modify_eq_self {f : NamedClass → NamedClass} (hf : ∀ c, (f c).name = c.name)
    (h : ∀ c, l.get? id = some c → f c = c) :
  l.modify id f hf = l
  := by
  have hclasses : l.classes.modify id.index f = l.classes := by
    apply List.ext_getElem?
    intro i
    rw [List.getElem?_modify]
    cases hc : l.classes[i]? with
    | none => rfl
    | some c =>
        apply congrArg some
        dsimp only
        split
        · next hi =>
          apply h
          rw [get?, hi, hc]
        · rfl
  obtain ⟨classes, byName, hlookup⟩ := l
  simp only [modify, mk.injEq, and_true]
  exact hclasses

/-- A reference that is known changes nothing. -/
theorem declare_of_knows (h : l.Knows ref) :
  l.declare ref = l
  := by
  obtain ⟨id, c, hid, hc, hmembers⟩ := h
  rw [declare, intern_of_idOf? hid]
  dsimp only
  generalize ref.members = members at hmembers
  induction members with
  | nil => rfl
  | cons m ms ih =>
      have hm : (l.add ref.name m).2 = l := by
        rw [add, intern_of_idOf? hid]
        apply modify_eq_self fun c => c.name_add m
        intro d hd
        obtain rfl := Option.some.inj (hc.symm.trans hd)
        apply NamedClass.add_of_has (hmembers m List.mem_cons_self)
      rw [List.foldl_cons, hm]
      apply ih fun m hm => hmembers m (List.mem_cons_of_mem _ hm)

end Lexicon

/-! ### Readers in a lexicon that knows the source -/

namespace Source.Reader

/-- The reader with another lexicon. -/
def withLexicon (r : Reader) (l : Lexicon) : Reader := { r with lexicon := l }

variable (r : Reader) {l : Lexicon}

theorem endBranch_withLexicon (replacement : Option Bytes) :
  (r.withLexicon l).endBranch replacement = (r.endBranch replacement).withLexicon l
  := by
  rw [endBranch, endBranch]
  dsimp only [withLexicon]
  split
  · rfl
  · rfl

theorem closeGroup_withLexicon (reps : Reps) :
  (r.withLexicon l).closeGroup reps = (r.closeGroup reps).withLexicon l
  := by
  rw [closeGroup, closeGroup]
  dsimp only [withLexicon]
  split
  · rfl
  · rfl

theorem abandonGroup_withLexicon :
  (r.withLexicon l).abandonGroup = r.abandonGroup.withLexicon l
  := by
  rw [abandonGroup, abandonGroup, closeGroup_withLexicon]
  dsimp only [withLexicon]
  split
  · rfl
  · rfl

theorem finish_withLexicon :
  (r.withLexicon l).finish = r.finish.withLexicon l
  := by
  rw [finish, finish]
  change r.opened.foldl _ (r.withLexicon l) = _
  induction r.opened generalizing r with
  | nil => rfl
  | cons g opened ih =>
      rw [List.foldl_cons, List.foldl_cons, endBranch_withLexicon, abandonGroup_withLexicon, ih]

/-- A reference to a class that has its id and the members given there already does nothing but
put the node for it into the chain. -/
theorem refer_withLexicon {ref : Reference} (reps : Reps)
    (hid : l.idOf ref.name = r.lexicon.idOf ref.name) (hknows : l.Knows ref) :
  (r.withLexicon l).refer ref reps = (r.refer ref reps).withLexicon l
  := by
  change Reader.mk (r.chain ++ [.leaf (.memberOf (l.idOf ref.name)) reps]) r.opened r.groups
    (l.declare ref) r.warnings = _
  rw [l.declare_of_knows hknows, hid]
  rfl

theorem take_withLexicon (pos : Nat) {i : Item}
    (h : ∀ ref ∈ i.reference?, l.idOf ref.name = r.lexicon.idOf ref.name ∧ l.Knows ref) :
  (r.withLexicon l).take pos i = (r.take pos i).withLexicon l
  := by
  cases i with
  | groupOpen => rfl
  | branchEnd replacement => apply endBranch_withLexicon
  | groupClose replacement reps =>
      rw [take, take, endBranch_withLexicon, closeGroup_withLexicon]
  | cutOff replacement =>
      rw [take, take, endBranch_withLexicon, abandonGroup_withLexicon]
  | reference ref reps =>
      obtain ⟨hid, hknows⟩ := h ref rfl
      apply r.refer_withLexicon reps hid hknows
  | nodes nodes => rfl

/-- A reader to which nothing in the rest of a source is new reads the same as the one that has
to learn it, if all names have the ids that they get there. -/
theorem read_withLexicon (total : Nat) (s : Bytes)
    (hnames : (r.read total s).lexicon.names <+: l.names)
    (hknows : ∀ ref ∈ r.referencesIn total s, l.Knows ref) :
  (r.withLexicon l).read total s = (r.read total s).withLexicon l
  := by
  fun_induction read total r s with
  | case1 r =>
      rw [read]
      apply finish_withLexicon
  | case2 r b rest scan ih =>
      rw [referencesIn] at hknows
      have htake : ((r.warn scan.warnings).withLexicon l).take (position total (b :: rest))
          scan.value = ((r.warn scan.warnings).take (position total (b :: rest))
            scan.value).withLexicon l := by
        apply take_withLexicon
        intro ref href
        refine ⟨?_, hknows ref (List.mem_append_left _ (Option.mem_toList.mpr href))⟩
        -- The names that follow are put behind the one that is referred to here.
        apply Lexicon.idOf_of_more
        rw [lexicon_read, lexicon_take, Option.mem_def.mp href] at hnames
        apply (r.lexicon.names_prefix_declare ref).trans
        apply (Lexicon.names_prefix_foldl_declare _ _).trans hnames
      rw [read]
      change (((r.warn scan.warnings).withLexicon l).take _ scan.value).read total scan.rest = _
      rw [htake, ih hnames]
      intro ref href
      apply hknows ref (List.mem_append_right _ href)

end Source.Reader

/-! ### Reading twice -/

namespace Reading

/-- A source that is read again in the lexicon that the first reading has left gives the same
pattern, ids of classes included, and the same warnings, and it leaves the lexicon exactly as it
is. -/
theorem ofSource_again (source : Bytes) (lexicon : Lexicon) :
  ofSource source (ofSource source lexicon).lexicon = ofSource source lexicon
  := by
  let r := Source.Reader.start lexicon
  let l := (r.read source.length source).lexicon
  have hknows : ∀ ref ∈ r.referencesIn source.length source, l.Knows ref := by
    intro ref href
    have hlexicon : l = (r.referencesIn source.length source).foldl Lexicon.declare lexicon :=
      r.lexicon_read source.length source
    rw [hlexicon]
    apply Lexicon.knows_foldl_declare href
  have hread : (r.withLexicon l).read source.length source = r.read source.length source :=
    r.read_withLexicon source.length source (List.prefix_refl l.names) hknows
  change ofSource source l = _
  have hsecond : ofSource source l =
      let r := (r.withLexicon l).read source.length source
      ⟨⟨r.chain, r.groups⟩, r.warnings, r.lexicon⟩ := rfl
  rw [hsecond, hread]
  rfl

end Reading

end Respell
