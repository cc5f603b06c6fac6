import Respell.Proofs.Lexicon.Reachable

/-!
# Ids through the history of a lexicon

Whatever has happened to a lexicon, its names are distinct and the index leads from each of them
to the class of that name.  Since names stay where they are, an id that was given out for a name,
or put into a pattern for it, leads to the class of this name ever after.  An operation changes
the classes that it names only, and reading a pattern does nothing to a class but put new members
among the others.
-/

namespace Respell

/-! ### Classes that are only added to -/

namespace NamedClass

/-- The second class has all members of the first one in their order, and its name and
comparison. -/
structure GrowsTo (c c' : NamedClass) : Prop where
  name : c'.name = c.name
  casing : c'.casing = c.casing
  members : c.members.Sublist c'.members

theorem GrowsTo.refl (c : NamedClass) :
  c.GrowsTo c
  := ⟨rfl, rfl, List.Sublist.refl _⟩

theorem GrowsTo.trans {c c' c'' : NamedClass} (h : c.GrowsTo c') (h' : c'.GrowsTo c'') :
  c.GrowsTo c''
  := ⟨h'.name.trans h.name, h'.casing.trans h.casing, h.members.trans h'.members⟩

/-- A member that is offered is put among the others or not at all. -/
theorem growsTo_add (c : NamedClass) (m : Member) :
  c.GrowsTo (c.add m).2
  := by
  rw [add]
  split
  · apply GrowsTo.refl
  · obtain ⟨before, after, hmembers, hplace, -⟩ := place_eq c.casing m c.members
    refine ⟨rfl, rfl, ?_⟩
    dsimp only
    rw [hplace, hmembers]
    apply (List.Sublist.refl before).append (List.sublist_cons_self m after)

end NamedClass

namespace Lexicon

variable {l l' l'' : Lexicon} {name : Bytes} {id : ClassId}

/-! ### Operations -/

/-- What may be done to a lexicon. -/
inductive Operation where
  /-- The class of a name is looked for, and made if there is none. -/
  | intern (name : Bytes)
  /-- A text is offered to the class of a name, which is made if there is none. -/
  | offer (name text : Bytes) (replacement : Option Bytes)
  /-- The class of a name is changed, if there is one. -/
  | change (name : Bytes) (x : NamedClass.Change)
  /-- The source of a pattern is read. -/
  | read (source : Bytes)

/-- The names that an operation mentions. -/
def Operation.names : Operation → List Bytes
  | intern name => [name]
  | offer name _ _ => [name]
  | change name _ => [name]
  | read source => (Source.referencesIn source).map (·.name)

/-- The lexicon after an operation. -/
def apply (l : Lexicon) : Operation → Lexicon
  | .intern name => (l.intern name).2
  | .offer name text replacement => (l.add name (.ofText text replacement)).2
  | .change name x => l.change name x
  | .read source => (Reading.ofSource source l).lexicon

/-- The lexicon after some operations, one after the other. -/
def after (l : Lexicon) (history : List Operation) : Lexicon := history.foldl apply l

theorem Reachable.apply (h : l.Reachable) (op : Operation) :
  (l.apply op).Reachable
  := by
  cases op with
  | intern name => exact h.intern name
  | offer name text replacement => exact h.add name _
  | change name x => exact h.change name x
  | read source => exact h.read source

theorem Reachable.after (h : l.Reachable) (history : List Operation) :
  (l.after history).Reachable
  := by
  induction history generalizing l with
  | nil => exact h
  | cons op history ih => exact ih (h.apply op)

/-! ### Names -/

theorem names_change (l : Lexicon) (name : Bytes) (x : NamedClass.Change) :
  (l.change name x).names = l.names
  := by
  rw [change]
  split
  · rfl
  · apply names_modify

/-- Operations leave the names where they are. -/
theorem names_prefix_apply (l : Lexicon) (op : Operation) :
  l.names <+: (l.apply op).names
  := by
  cases op with
  | intern name => apply names_prefix_intern
  | offer name text replacement => apply names_prefix_add
  | change name x => exact ⟨[], (List.append_nil _).trans (l.names_change name x).symm⟩
  | read source =>
      rw [apply, Reading.lexicon_ofSource]
      apply names_prefix_foldl_declare

theorem names_prefix_after (l : Lexicon) (history : List Operation) :
  l.names <+: (l.after history).names
  := by
  induction history generalizing l with
  | nil => apply List.prefix_refl
  | cons op history ih => apply (l.names_prefix_apply op).trans (ih _)

/-- No class bears a name that is not in the index. -/
theorem not_mem_names_of_none (h : l.idOf? name = none) :
  name ∉ l.names
  := by
  rw [idOf?_eq, Option.map_eq_none_iff, List.findIdx?_eq_none_iff] at h
  intro hmem
  have := h name hmem
  rw [beq_self_eq_true] at this
  cases this

/-- A name is put behind the others only if it is new. -/
theorem nodup_intern (h : l.names.Nodup) (name : Bytes) :
  (l.intern name).2.names.Nodup
  := by
  cases hid : l.idOf? name with
  | some id =>
      rw [intern_of_idOf? hid]
      exact h
  | none =>
      have hnames : (l.create name hid).names = l.names ++ [name] := List.map_append
      rw [intern_of_none hid, hnames]
      apply List.nodup_append.mpr ⟨h, List.pairwise_singleton _ name, ?_⟩
      rintro other hother _ hname rfl
      rw [List.mem_singleton.mp hname] at hother
      exact not_mem_names_of_none hid hother

theorem nodup_declare (h : l.names.Nodup) (ref : Source.Reference) :
  (l.declare ref).names.Nodup
  := by
  have hmembers : ∀ (members : List Member) (l' : Lexicon), l'.names.Nodup →
      (members.foldl (fun l m => (l.add ref.name m).2) l').names.Nodup := by
    intro members
    induction members with
    | nil => exact fun _ h => h
    | cons m ms ih =>
        intro l' h
        apply ih
        rw [names_add]
        apply nodup_intern h
  apply hmembers ref.members _ (nodup_intern h ref.name)

theorem nodup_foldl_declare (h : l.names.Nodup) (refs : List Source.Reference) :
  (refs.foldl declare l).names.Nodup
  := by
  induction refs generalizing l with
  | nil => exact h
  | cons ref refs ih => exact ih (nodup_declare h ref)

/-- No two classes of a lexicon that one can get hold of have the same name. -/
theorem Reachable.nodup_names (h : l.Reachable) :
  l.names.Nodup
  := by
  induction h with
  | empty => exact List.nodup_nil
  | intern _ name ih => apply nodup_intern ih
  | add _ name m ih =>
      rw [names_add]
      apply nodup_intern ih
  | change _ name x ih =>
      rw [names_change]
      exact ih
  | read _ source ih =>
      rw [Reading.lexicon_ofSource]
      apply nodup_foldl_declare ih

/-- The names are distinct, and the index leads from a name to an id exactly when the class there
has this name. -/
structure Indexed (l : Lexicon) : Prop where
  distinct : l.names.Nodup
  lookup_iff : ∀ name id,
    l.byName.lookup name = some id ↔ ∃ c, l.get? id = some c ∧ c.name = name

/-- The id leads to the class of the name. -/
def Resolves (l : Lexicon) (id : ClassId) (name : Bytes) : Prop :=
  ∃ c, l.get? id = some c ∧ c.name = name

theorem indexed_of_nodup (h : l.names.Nodup) :
  l.Indexed
  where
  distinct := h
  lookup_iff name id := by
    constructor
    · intro hid
      apply exists_class_of_idOf? hid
    · rintro ⟨c, hc, rfl⟩
      obtain ⟨hlt, hget⟩ := List.getElem?_eq_some_iff.mp hc
      have hname : l.classes.findIdx? (·.name == c.name) = some id.index := by
        apply List.findIdx?_eq_some_iff_getElem.mpr
        refine ⟨hlt, by rw [hget, beq_self_eq_true], ?_⟩
        -- A class in front of this one has another name.
        intro j hj hsame
        have hne := List.pairwise_iff_getElem.mp h j id.index (by simp [names]; omega)
          (by simpa [names] using hlt) hj
        simp only [names, List.getElem_map, hget] at hne
        exact hne (beq_iff_eq.mp hsame)
      rw [l.lookup_eq, hname, Option.map_some]

/-- An id that was given out for a name leads to the class of this name ever after. -/
theorem resolves_after (h : l.idOf? name = some id) (history : List Operation) :
  (l.after history).Resolves id name
  := exists_class_of_idOf? (idOf?_of_more (l.names_prefix_after history) h)

/-! ### Classes that are not named -/

/-- Nothing but the classes with some names is other in `l'` than in `l`. -/
def SameBut (names : List Bytes) (l l' : Lexicon) : Prop :=
  ∀ id c, c.name ∉ names → (l'.get? id = some c ↔ l.get? id = some c)

theorem SameBut.refl (names : List Bytes) (l : Lexicon) :
  SameBut names l l
  := fun _ _ _ => Iff.rfl

theorem SameBut.trans {names : List Bytes} (h : SameBut names l l') (h' : SameBut names l' l'') :
  SameBut names l l''
  := fun id c hc => (h' id c hc).trans (h id c hc)

theorem SameBut.mono {names names' : List Bytes} (hnames : names ⊆ names')
    (h : SameBut names l l') :
  SameBut names' l l'
  := fun id c hc => h id c fun hmem => hc (hnames hmem)

/-- The class that a name leads to has this name, if it is new as well. -/
theorem name_classOf (l : Lexicon) (name : Bytes) :
  (l.classOf name).name = name
  := by
  rw [classOf, find?]
  cases hid : l.idOf? name with
  | none => rfl
  | some id =>
      obtain ⟨c, hc, hname⟩ := exists_class_of_idOf? hid
      rw [Option.bind_some, hc, Option.getD_some, hname]

theorem sameBut_intern (l : Lexicon) (name : Bytes) :
  SameBut [name] l (l.intern name).2
  := by
  cases hid : l.idOf? name with
  | some id' =>
      rw [intern_of_idOf? hid]
      apply SameBut.refl
  | none =>
      intro id c hc
      rw [get?_intern]
      split
      · next h =>
        have hafter : l.classOf name ≠ c := by
          rintro rfl
          exact hc (List.mem_singleton.mpr (l.name_classOf name))
        have hbefore : l.get? id = none := by
          rw [h, idOf, intern_of_none hid]
          exact List.getElem?_eq_none (Nat.le_refl _)
        simp [hafter, hbefore]
      · rfl

/-- Only the class at the id is changed, and it keeps its name. -/
theorem sameBut_modify {f : NamedClass → NamedClass} (hf : ∀ c, (f c).name = c.name)
    (h : l.idOf? name = some id) :
  SameBut [name] l (l.modify id f hf)
  := by
  intro id' c hc
  rw [get?_modify]
  by_cases hid : id' = id
  · obtain ⟨d, hd, hname⟩ := exists_class_of_idOf? h
    have hbefore : d ≠ c := by
      rintro rfl
      exact hc (List.mem_singleton.mpr hname)
    have hafter : f d ≠ c := by
      rintro rfl
      exact hc (List.mem_singleton.mpr ((hf d).trans hname))
    rw [hid, hd]
    simp [hbefore, hafter]
  · simp [hid]

theorem sameBut_add (l : Lexicon) (name : Bytes) (m : Member) :
  SameBut [name] l (l.add name m).2
  := (l.sameBut_intern name).trans
    (sameBut_modify (fun c => c.name_add m) (l.idOf?_intern name))

theorem sameBut_declare (l : Lexicon) (ref : Source.Reference) :
  SameBut [ref.name] l (l.declare ref)
  := by
  rw [declare]
  apply (l.sameBut_intern ref.name).trans
  generalize (l.intern ref.name).2 = l
  induction ref.members generalizing l with
  | nil => apply SameBut.refl
  | cons m ms ih => apply (l.sameBut_add ref.name m).trans (ih _)

theorem sameBut_foldl_declare (l : Lexicon) (refs : List Source.Reference) :
  SameBut (refs.map (·.name)) l (refs.foldl declare l)
  := by
  induction refs generalizing l with
  | nil => apply SameBut.refl
  | cons ref refs ih =>
      apply ((l.sameBut_declare ref).mono _).trans ((ih _).mono _)
      · intro other hother
        rw [List.mem_singleton.mp hother]
        apply List.mem_cons_self
      · apply List.subset_cons_self

/-- An operation leaves all classes as they are whose names it does not mention. -/
theorem sameBut_apply (l : Lexicon) (op : Operation) :
  SameBut op.names l (l.apply op)
  := by
  cases op with
  | intern name => exact l.sameBut_intern name
  | offer name text replacement => exact l.sameBut_add name _
  | change name x =>
      rw [apply, change]
      split
      · apply SameBut.refl
      · next id hid => exact sameBut_modify (fun c => c.name_change x) hid
  | read source =>
      rw [apply, Reading.lexicon_ofSource]
      apply sameBut_foldl_declare

/-! ### Classes that are only added to -/

/-- All classes are still at their ids and have only been added to. -/
def GrowsTo (l l' : Lexicon) : Prop :=
  ∀ id c, l.get? id = some c → ∃ c', l'.get? id = some c' ∧ c.GrowsTo c'

theorem GrowsTo.refl (l : Lexicon) :
  l.GrowsTo l
  := fun _ c hc => ⟨c, hc, .refl c⟩

theorem GrowsTo.trans (h : l.GrowsTo l') (h' : l'.GrowsTo l'') :
  l.GrowsTo l''
  := by
  intro id c hc
  obtain ⟨c', hc', hgrows⟩ := h id c hc
  obtain ⟨c'', hc'', hgrows'⟩ := h' id c' hc'
  exact ⟨c'', hc'', hgrows.trans hgrows'⟩

theorem growsTo_intern (l : Lexicon) (name : Bytes) :
  l.GrowsTo (l.intern name).2
  := by
  cases hid : l.idOf? name with
  | some id =>
      rw [intern_of_idOf? hid]
      apply GrowsTo.refl
  | none =>
      intro id c hc
      rw [intern_of_none hid]
      obtain ⟨hlt, -⟩ := List.getElem?_eq_some_iff.mp hc
      exact ⟨c, (List.getElem?_append_left hlt).trans hc, .refl c⟩

theorem growsTo_add (l : Lexicon) (name : Bytes) (m : Member) :
  l.GrowsTo (l.add name m).2
  := by
  apply (l.growsTo_intern name).trans
  intro id c hc
  rw [get?_add, hc, Option.map_some]
  split
  · exact ⟨_, rfl, c.growsTo_add m⟩
  · exact ⟨_, rfl, .refl c⟩

theorem growsTo_declare (l : Lexicon) (ref : Source.Reference) :
  l.GrowsTo (l.declare ref)
  := by
  rw [declare]
  apply (l.growsTo_intern ref.name).trans
  generalize (l.intern ref.name).2 = l
  induction ref.members generalizing l with
  | nil => apply GrowsTo.refl
  | cons m ms ih => apply (l.growsTo_add ref.name m).trans (ih _)

theorem growsTo_foldl_declare (refs : List Source.Reference) (l : Lexicon) :
  l.GrowsTo (refs.foldl declare l)
  := by
  induction refs generalizing l with
  | nil => apply GrowsTo.refl
  | cons ref refs ih => apply (l.growsTo_declare ref).trans (ih _)

theorem growsTo_ofSource (source : Bytes) (l : Lexicon) :
  l.GrowsTo (Reading.ofSource source l).lexicon
  := by
  rw [Reading.lexicon_ofSource]
  apply growsTo_foldl_declare

/-! ### Histories -/

/-- Whatever has happened to a lexicon, the names are distinct and the index leads from each of
them to the class that has it.  An id that is given out for a name then leads to the class of this
name ever after, and so do the ids in a pattern that is read then for the names in its source.  An
operation leaves the classes as they are that it does not name, and reading a pattern only puts
members among those that a class had before. -/
theorem indexed_and_resolves_after (history : List Operation) :
  let l := empty.after history
  l.Indexed ∧
    (∀ name more, ((l.intern name).2.after more).Resolves (l.intern name).1 name) ∧
    (∀ source more,
      let r := Reading.ofSource source l
      let refs := Source.referencesIn source
      (∀ ref ∈ refs, ∃ rest, Mark.classOpen :: rest <:+ source ∧
        ref.name = rest.takeWhile (!Mark.endsName ·)) ∧
      List.Forall₂ (fun id ref => (r.lexicon.after more).Resolves id ref.name)
        (Node.classIds r.pattern.nodes) refs) ∧
    (∀ op, SameBut op.names l (l.apply op)) ∧
    ∀ source, l.GrowsTo (Reading.ofSource source l).lexicon
  := by
  intro l
  have hreachable : l.Reachable := Reachable.empty.after history
  refine ⟨indexed_of_nodup hreachable.nodup_names, ?_, ?_, l.sameBut_apply, ?_⟩
  · intro name more
    apply resolves_after (l.idOf?_intern name)
  · intro source more r refs
    constructor
    · intro ref href
      obtain ⟨rest, hrest, rfl⟩ := Source.exists_of_mem_referencesIn href
      exact ⟨rest, hrest, Source.name_reference _ _ rest⟩
    · apply (Reading.forall₂_classIds_ofSource source l).imp
      intro id ref hid
      apply resolves_after hid.symm
  · intro source
    apply growsTo_ofSource

end Lexicon

end Respell
