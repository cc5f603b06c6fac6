import Respell.NamedClass

/-!
# Lexicons

A lexicon holds classes in the order of their creation.  Patterns refer to a class by its
`ClassId`, its index in that order; no operation moves or removes a class, so an id keeps
its meaning for ever.  Classes are looked for by name in an index beside them, which every
operation that makes a class has to keep up with them.
-/

namespace Respell

/-- The place of a class in a lexicon. -/
structure ClassId where
  index : Nat
  deriving DecidableEq, Repr

/-- An id is shown by its index. -/
instance : ToString ClassId := ⟨fun id => s!"ClassId({id.index})"⟩

/-- A change of a class that leaves its name leaves the names of all classes. -/
theorem NamedClass.map_name_modify (classes : List NamedClass) (i : Nat)
    {f : NamedClass → NamedClass} (hf : ∀ c, (f c).name = c.name) :
  (classes.modify i f).map name = classes.map name
  := by
  apply List.ext_getElem?
  intro j
  rw [List.getElem?_map, List.getElem?_map, List.getElem?_modify]
  cases classes[j]? with
  | none => rfl
  | some c =>
    apply congrArg some
    dsimp only
    split
    · apply hf
    · rfl

/-- Classes in the order of their creation, and the ids of their names.  What the index says of
a name is what a search through the classes from the front would find. -/
structure Lexicon where
  classes : List NamedClass
  byName : List (Bytes × ClassId)
  lookup_eq : ∀ name,
    byName.lookup name = (classes.findIdx? (·.name == name)).map ClassId.mk
  deriving DecidableEq, Repr

namespace Lexicon

/-- The lexicon without classes. -/
def empty : Lexicon := ⟨[], [], fun _ => rfl⟩

instance : EmptyCollection Lexicon := ⟨empty⟩

/-- The number of classes. -/
def size (l : Lexicon) : Nat := l.classes.length

/-- The class at an id; there is none when the id comes from another lexicon. -/
def get? (l : Lexicon) (id : ClassId) : Option NamedClass := l.classes[id.index]?

/-- The id of the class with the given name. -/
def idOf? (l : Lexicon) (name : Bytes) : Option ClassId := l.byName.lookup name

/-- The class with the given name. -/
def find? (l : Lexicon) (name : Bytes) : Option NamedClass :=
  (l.idOf? name).bind l.get?

/-- The lexicon with a class without members behind the others, of a name that none of them
has. -/
def create (l : Lexicon) (name : Bytes) (h : l.idOf? name = none) : Lexicon where
  classes := l.classes ++ [.new name]
  byName := (name, ⟨l.size⟩) :: l.byName
  lookup_eq other := by
    rw [idOf?, l.lookup_eq, Option.map_eq_none_iff] at h
    rw [List.lookup_cons, List.findIdx?_append, List.findIdx?_singleton, l.lookup_eq]
    by_cases hname : other = name
    · subst hname
      simp [h, NamedClass.new, size]
    · have hother : ¬ (name == other) = true := fun heq => hname (beq_iff_eq.mp heq).symm
      have hother' : (other == name) = false := beq_eq_false_iff_ne.mpr hname
      simp [hother, hother', NamedClass.new]

/-- The lexicon with a change of the class at an id that leaves its name. -/
def modify (l : Lexicon) (id : ClassId) (f : NamedClass → NamedClass)
    (hf : ∀ c, (f c).name = c.name) : Lexicon where
  classes := l.classes.modify id.index f
  byName := l.byName
  lookup_eq name := by
    have hfind : ∀ classes : List NamedClass, classes.findIdx? (·.name == name) =
        (classes.map NamedClass.name).findIdx? (· == name) := by
      intro classes
      rw [List.findIdx?_map]
      rfl
    rw [l.lookup_eq, hfind, hfind, NamedClass.map_name_modify l.classes id.index hf]

/-- The lexicon with a class of the given name, new and last if there was none, and the
id of that class. -/
def intern (l : Lexicon) (name : Bytes) : ClassId × Lexicon :=
  match h : l.idOf? name with
  | some id => (id, l)
  | none => (⟨l.size⟩, l.create name h)

/-- The lexicon with a member offered to the class of the given name, which is created
first if there is none. -/
def add (l : Lexicon) (name : Bytes) (m : Member) : Insertion × Lexicon :=
  let (id, l) := l.intern name
  (((l.get? id).getD (.new name)).add m |>.1,
    l.modify id (fun c => (c.add m).2) fun c => c.name_add m)

/-- The lexicon with another comparison in the class of the given name, if it has one. -/
def setCasing (l : Lexicon) (name : Bytes) (casing : Casing) : Lexicon :=
  match l.idOf? name with
  | none => l
  | some id => l.modify id (·.setCasing casing) fun c => c.name_setCasing casing

end Lexicon

end Respell
