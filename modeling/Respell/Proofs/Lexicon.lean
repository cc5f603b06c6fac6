import Mathlib.Data.List.Basic
import Mathlib.Tactic.Common
import Respell.Lexicon
import Respell.Source.Reference

/-!
# Ids keep their meaning

A lexicon is looked into by names alone.  Its operations leave the names where they are, and
put new ones behind them only.  So an id that was given out for a name is still the id of this
name in every later lexicon, and all classes that were referred to are there in the end.
-/

namespace Respell

namespace Lexicon

/-- The names of the classes in order. -/
def names (l : Lexicon) : List Bytes := l.classes.map NamedClass.name

variable {l l' : Lexicon} {name : Bytes} {id : ClassId}

theorem idOf?_eq :
  l.idOf? name = (l.names.findIdx? (· == name)).map ClassId.mk
  := by
  rw [idOf?, l.lookup_eq, names, List.findIdx?_map]
  rfl

/-- The id of a name is the id of a class with this name. -/
theorem exists_class_of_idOf? (h : l.idOf? name = some id) :
  ∃ c, l.get? id = some c ∧ c.name = name
  := by
  rw [idOf?, l.lookup_eq] at h
  obtain ⟨i, hi, rfl⟩ := Option.map_eq_some_iff.mp h
  obtain ⟨hlt, hname, -⟩ := List.findIdx?_eq_some_iff_getElem.mp hi
  use l.classes[i], List.getElem?_eq_getElem hlt, beq_iff_eq.mp hname

/-- A name keeps its id when others are put behind it. -/
theorem idOf?_of_more (hnames : l.names <+: l'.names) (h : l.idOf? name = some id) :
  l'.idOf? name = some id
  := by
  obtain ⟨more, hmore⟩ := hnames
  rw [idOf?_eq] at h
  obtain ⟨i, hi, rfl⟩ := Option.map_eq_some_iff.mp h
  rw [idOf?_eq, ← hmore, List.findIdx?_append, hi]
  rfl

/-! ### Looking for a class -/

theorem names_prefix_intern (l : Lexicon) (name : Bytes) :
  l.names <+: (l.intern name).2.names
  := by
  rw [intern]
  split
  · apply List.prefix_refl
  · rw [names, names, create, List.map_append]
    apply List.prefix_append

/-- A name that was looked for is there, and its id is the one that was given out. -/
theorem idOf?_intern (l : Lexicon) (name : Bytes) :
  (l.intern name).2.idOf? name = some (l.intern name).1
  := by
  rw [intern]
  split
  · next id h => apply h
  · next h =>
    dsimp only [idOf?, create]
    rw [List.lookup_cons_self]

/-- Looking for a name that is there changes nothing. -/
theorem intern_of_idOf? (h : l.idOf? name = some id) :
  l.intern name = (id, l)
  := by
  rw [intern]
  split
  · next id' h' => rw [Option.some.inj (h.symm.trans h')]
  · next h' => cases h.symm.trans h'

/-- Looking for a name that is not there makes a class. -/
theorem intern_of_none (h : l.idOf? name = none) :
  l.intern name = (⟨l.size⟩, l.create name h)
  := by
  rw [intern]
  split
  · next id' h' => cases h'.symm.trans h
  · rfl

/-- The id that is given out for a name. -/
def idOf (l : Lexicon) (name : Bytes) : ClassId := (l.intern name).1

/-- The id that was given out for a name is its id in every lexicon with more names behind. -/
theorem idOf_of_more (h : (l.intern name).2.names <+: l'.names) :
  l'.idOf name = l.idOf name
  := by
  rw [idOf, intern_of_idOf? (idOf?_of_more h (l.idOf?_intern name)), idOf]

/-! ### Adding members -/

/-- A change of a class that leaves its name leaves all names. -/
@[simp]
theorem names_modify (l : Lexicon) (id : ClassId) (f : NamedClass → NamedClass)
    (hf : ∀ c, (f c).name = c.name) :
  (l.modify id f hf).names = l.names
  := NamedClass.map_name_modify l.classes id.index hf

theorem names_add (l : Lexicon) (name : Bytes) (m : Member) :
  (l.add name m).2.names = (l.intern name).2.names
  := names_modify _ _ _ fun c => c.name_add m

theorem names_prefix_add (l : Lexicon) (name : Bytes) (m : Member) :
  l.names <+: (l.add name m).2.names
  := by
  rw [names_add]
  apply names_prefix_intern

/-! ### References -/

/-- The lexicon after a class was referred to, which then has the members given there. -/
def declare (l : Lexicon) (ref : Source.Reference) : Lexicon :=
  ref.members.foldl (fun l m => (l.add ref.name m).2) (l.intern ref.name).2

theorem names_prefix_declare (l : Lexicon) (ref : Source.Reference) :
  (l.intern ref.name).2.names <+: (l.declare ref).names
  := by
  rw [declare]
  generalize (l.intern ref.name).2 = l
  induction ref.members generalizing l with
  | nil => apply List.prefix_refl
  | cons m ms ih => apply (l.names_prefix_add ref.name m).trans (ih _)

theorem names_prefix_foldl_declare (l : Lexicon) (refs : List Source.Reference) :
  l.names <+: (refs.foldl declare l).names
  := by
  induction refs generalizing l with
  | nil => apply List.prefix_refl
  | cons ref refs ih =>
      apply (l.names_prefix_intern ref.name).trans
      apply (l.names_prefix_declare ref).trans (ih _)

/-- Every class that was referred to is there. -/
theorem exists_class_of_declared (l : Lexicon) {refs : List Source.Reference}
    {ref : Source.Reference} (h : ref ∈ refs) :
  ∃ c, (refs.foldl declare l).find? ref.name = some c ∧ c.name = ref.name
  := by
  induction refs generalizing l with
  | nil => cases h
  | cons first refs ih =>
      rcases List.mem_cons.mp h with rfl | h
      · have hnames := (l.names_prefix_declare ref).trans (names_prefix_foldl_declare _ refs)
        have hid := idOf?_of_more hnames (l.idOf?_intern ref.name)
        obtain ⟨c, hc, hname⟩ := exists_class_of_idOf? hid
        rw [List.foldl_cons, find?, hid]
        use c, hc
      · apply ih _ h

end Lexicon

end Respell
