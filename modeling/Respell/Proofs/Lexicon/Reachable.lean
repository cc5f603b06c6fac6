import Respell.Proofs.NamedClass
import Respell.Proofs.Source.References

/-!
# Lexicons that one can get hold of

A lexicon comes from the one without classes by looking for names, by changing the classes
found under a name and by reading patterns.  Reading a pattern does nothing to a lexicon but
refer to some classes one after the other, so that what is kept by new names and by offers of
members is kept by it as well.  In particular the members of every class are in order.
-/

namespace Respell

namespace Lexicon

variable {l : Lexicon} {id : ClassId}

/-! ### The class at an id -/

/-- The class of the given name, without members if there is none. -/
def classOf (l : Lexicon) (name : Bytes) : NamedClass := (l.find? name).getD (.new name)

/-- After a name was looked for, its class is there, and the other ids have the classes that
they had before. -/
theorem get?_intern (l : Lexicon) (name : Bytes) (id : ClassId) :
  (l.intern name).2.get? id = if id = l.idOf name then some (l.classOf name) else l.get? id
  := by
  rw [idOf, classOf, find?]
  cases hname : l.idOf? name with
  | some id' =>
      obtain ⟨c, hc, -⟩ := exists_class_of_idOf? hname
      rw [intern_of_idOf? hname]
      split
      · next hid => rw [hid, Option.bind_some, hc, Option.getD_some]
      · rfl
  | none =>
      rw [intern_of_none hname, get?, get?, create]
      dsimp only
      split
      · next hid =>
        rw [hid, size, List.getElem?_concat_length]
        rfl
      · next hid =>
        have hne : id.index ≠ l.classes.length := fun h => hid (congrArg ClassId.mk h)
        rw [List.getElem?_append]
        split
        · rfl
        · rw [List.getElem?_eq_none (by simp; omega), List.getElem?_eq_none (by omega)]

/-- Only the class at the id is changed. -/
theorem get?_modify (l : Lexicon) (id : ClassId) (f : NamedClass → NamedClass)
    (hf : ∀ c, (f c).name = c.name) (id' : ClassId) :
  (l.modify id f hf).get? id' = (l.get? id').map fun c => if id' = id then f c else c
  := by
  obtain ⟨i⟩ := id
  obtain ⟨j⟩ := id'
  simp only [get?, modify, ClassId.mk.injEq, eq_comm (a := j)]
  apply List.getElem?_modify

/-- A member is offered to the class of the given name only. -/
theorem get?_add (l : Lexicon) (name : Bytes) (m : Member) (id : ClassId) :
  (l.add name m).2.get? id = ((l.intern name).2.get? id).map fun c =>
    if id = l.idOf name then (c.add m).2 else c
  := get?_modify _ _ _ (fun c => c.name_add m) id

theorem idOf?_add (l : Lexicon) (name : Bytes) (m : Member) :
  (l.add name m).2.idOf? name = some (l.idOf name)
  := by
  have hnames : (l.intern name).2.names <+: (l.add name m).2.names := by
    simp only [names_add, List.prefix_rfl]
  apply idOf?_of_more hnames (l.idOf?_intern name)

/-- The members of a reference are offered to its class, one after the other. -/
theorem get?_declare (l : Lexicon) (ref : Source.Reference) (id : ClassId) :
  (l.declare ref).get? id = ((l.intern ref.name).2.get? id).map fun c =>
    if id = l.idOf ref.name then ref.members.foldl (fun c m => (c.add m).2) c else c
  := by
  have hmembers : ∀ (members : List Member) (l' : Lexicon),
      l'.idOf? ref.name = some (l.idOf ref.name) →
      (members.foldl (fun l m => (l.add ref.name m).2) l').get? id = (l'.get? id).map fun c =>
        if id = l.idOf ref.name then members.foldl (fun c m => (c.add m).2) c else c := by
    intro members
    induction members with
    | nil => simp
    | cons m ms ih =>
        intro l' hl'
        have hid : l'.idOf ref.name = l.idOf ref.name := by rw [idOf, intern_of_idOf? hl']
        rw [List.foldl_cons, ih _ (hid ▸ l'.idOf?_add ref.name m), get?_add, hid,
          intern_of_idOf? hl', Option.map_map]
        congr 1
        funext c
        dsimp only [Function.comp]
        split
        · rfl
        · rfl
  apply hmembers ref.members _ (l.idOf?_intern ref.name)

/-! ### Reachable lexicons -/

/-- The lexicon after a change of the class of the given name, if there is one. -/
def change (l : Lexicon) (name : Bytes) (x : NamedClass.Change) : Lexicon :=
  match l.idOf? name with
  | none => l
  | some id => l.modify id (·.change x) fun c => c.name_change x

/-- A lexicon that comes from the one without classes by any number of operations. -/
inductive Reachable : Lexicon → Prop
  | empty : Reachable .empty
  | intern {l : Lexicon} (h : Reachable l) (name : Bytes) : Reachable (l.intern name).2
  | add {l : Lexicon} (h : Reachable l) (name : Bytes) (m : Member) :
      Reachable (l.add name m).2
  | change {l : Lexicon} (h : Reachable l) (name : Bytes) (x : NamedClass.Change) :
      Reachable (l.change name x)
  | read {l : Lexicon} (h : Reachable l) (source : Bytes) :
      Reachable (Reading.ofSource source l).lexicon

theorem Reachable.foldl_add (h : l.Reachable) (name : Bytes) (members : List Member) :
  (members.foldl (fun l m => (l.add name m).2) l).Reachable
  := by
  induction members generalizing l with
  | nil => apply h
  | cons m ms ih => apply ih (h.add name m)

/-! ### Classes in order -/

/-- All classes have their members in order. -/
def Ordered (l : Lexicon) : Prop := ∀ id, ∀ c ∈ l.get? id, c.Ordered

theorem ordered_empty :
  Ordered .empty
  := by
  intro id c hc
  cases hc

/-- The class of a name is in order, also if it is new. -/
theorem Ordered.classOf (h : l.Ordered) (name : Bytes) :
  (l.classOf name).Ordered
  := by
  rw [Lexicon.classOf, find?]
  cases hc : (l.idOf? name).bind l.get? with
  | none => exact List.Pairwise.nil
  | some c =>
      obtain ⟨id, -, hid⟩ := Option.bind_eq_some_iff.mp hc
      apply h id c hid

theorem Ordered.intern (h : l.Ordered) (name : Bytes) :
  (l.intern name).2.Ordered
  := by
  intro id c hc
  rw [get?_intern] at hc
  split at hc
  · obtain rfl := Option.some.inj hc
    apply h.classOf
  · apply h id c hc

theorem Ordered.add (h : l.Ordered) (name : Bytes) (m : Member) :
  (l.add name m).2.Ordered
  := by
  intro id c hc
  rw [get?_add] at hc
  obtain ⟨d, hd, rfl⟩ := Option.map_eq_some_iff.mp hc
  have hordered := h.intern name id d hd
  split
  · apply hordered.add
  · apply hordered

theorem Ordered.declare (h : l.Ordered) (ref : Source.Reference) :
  (l.declare ref).Ordered
  := by
  intro id c hc
  rw [get?_declare] at hc
  obtain ⟨d, hd, rfl⟩ := Option.map_eq_some_iff.mp hc
  have hordered := h.intern ref.name id d hd
  split
  · apply hordered.foldl_add
  · apply hordered

theorem Ordered.change (h : l.Ordered) (name : Bytes) (x : NamedClass.Change) :
  (l.change name x).Ordered
  := by
  rw [Lexicon.change]
  split
  · apply h
  · next id' _ =>
    intro id c hc
    rw [get?_modify] at hc
    obtain ⟨d, hd, rfl⟩ := Option.map_eq_some_iff.mp hc
    have hordered := h id d hd
    split
    · apply hordered.change
    · apply hordered

theorem Ordered.read (h : l.Ordered) (source : Bytes) :
  (Reading.ofSource source l).lexicon.Ordered
  := by
  rw [Reading.lexicon_ofSource]
  induction Source.referencesIn source generalizing l with
  | nil => apply h
  | cons ref refs ih => apply ih (h.declare ref)

/-- In a lexicon that one can get hold of all classes are in order. -/
theorem Reachable.ordered (h : l.Reachable) :
  l.Ordered
  := by
  induction h with
  | empty => apply ordered_empty
  | intern _ name ih => apply ih.intern
  | add _ name m ih => apply ih.add
  | change _ name x ih => apply ih.change
  | read _ source ih => apply ih.read

end Lexicon

end Respell
