import Respell.Text.Casing

/-!
# Classes of interchangeable texts

A class is a named list of member texts, each with the text that replaces it.  The list
is kept so that no member leads a later one: a scan from the front meets the longest
member that leads a word first.
-/

namespace Respell

/-- A text of a class and what it is replaced by. -/
structure Member where
  text : Bytes
  replacement : Bytes
  deriving DecidableEq, Repr

/-- The member with the given text, replaced by itself unless something else is given. -/
def Member.ofText (text : Bytes) (replacement : Option Bytes) : Member :=
  ⟨text, replacement.getD text⟩

/-- What became of a member offered to a class. -/
inductive Insertion where
  /-- The member belongs to the class now. -/
  | added
  /-- The class has a member with the same text and stays as it was. -/
  | duplicate
  deriving DecidableEq, Repr

/-- A named list of members together with the comparison of their texts. -/
structure NamedClass where
  name : Bytes
  casing : Casing
  members : List Member
  deriving DecidableEq, Repr

namespace NamedClass

/-- The class without members, in which case does not count. -/
def new (name : Bytes) : NamedClass := ⟨name, .folded, []⟩

/-- The class has a member with this text. -/
def has (c : NamedClass) (text : Bytes) : Bool :=
  c.members.any (c.casing.same ·.text text)

/-- The list with a new member in front of the first one whose text leads the new text,
or at the end if there is none. -/
def place (casing : Casing) (new : Member) : List Member → List Member
  | [] => [new]
  | m :: ms =>
    if casing.leads m.text new.text then new :: m :: ms else m :: place casing new ms

/-- The class after a member was offered to it. -/
def add (c : NamedClass) (m : Member) : Insertion × NamedClass :=
  if c.has m.text then (.duplicate, c)
  else (.added, { c with members := place c.casing m c.members })

/-- The class with another comparison.  When the comparison changes all members are
added again in their order, so that of several members that have become the same the
first one stays. -/
def setCasing (c : NamedClass) (casing : Casing) : NamedClass :=
  if c.casing = casing then c
  else c.members.foldl (fun d m => (d.add m).2) { c with casing, members := [] }

@[simp]
theorem name_add (c : NamedClass) (m : Member) :
  (c.add m).2.name = c.name
  := by
  rw [add]
  split
  · rfl
  · rfl

@[simp]
theorem name_setCasing (c : NamedClass) (casing : Casing) :
  (c.setCasing casing).name = c.name
  := by
  have hfold : ∀ (members : List Member) (d : NamedClass),
      (members.foldl (fun d m => (d.add m).2) d).name = d.name := by
    intro members
    induction members with
    | nil => exact fun _ => rfl
    | cons m ms ih =>
        intro d
        rw [List.foldl_cons, ih, name_add]
  rw [setCasing]
  split
  · rfl
  · apply hfold

/-- The first member from index `start` on that leads the candidate, with its index. -/
def find? (c : NamedClass) (candidate : Bytes) (start : Nat) : Option (Member × Nat) :=
  (c.members.zipIdx.drop start).find? (fun (m, _) => c.casing.leads m.text candidate)

end NamedClass

end Respell
