import Mathlib.Tactic.Common
import Respell.NamedClass

/-!
# The order of the members of a class

In a class no member leads a later one, so that a scan from the front meets the longest
member that leads a word first.  A new member is put in front of the first one that leads
it.  That nothing behind this place is led by the new member follows from the order that
was there before: such a text would also be led by the member in front of which the new one
is put.
-/

namespace Respell

namespace Casing

variable {casing : Casing} {s t u : Bytes}

theorem leads_trans (hst : casing.leads s t = true) (htu : casing.leads t u = true) :
  casing.leads s u = true
  := leads_iff.mpr ((leads_iff.mp hst).trans (leads_iff.mp htu))

theorem leads_of_same (h : casing.same s t = true) :
  casing.leads s t = true
  := leads_iff.mpr (same_iff.mp h ▸ List.prefix_refl _)

/-- Texts that lead each other are the same. -/
theorem same_of_leads (hst : casing.leads s t = true) (hts : casing.leads t s = true) :
  casing.same s t = true
  := by
  have hst := leads_iff.mp hst
  have hts := leads_iff.mp hts
  apply same_iff.mpr
  apply hst.eq_of_length (Nat.le_antisymm hst.length_le hts.length_le)

end Casing

/-- No member leads a later one. -/
def Member.Ordered (casing : Casing) (members : List Member) : Prop :=
  members.Pairwise fun m n => ¬ casing.leads m.text n.text = true

/-- Of two members in order neither is the same as the other one. -/
theorem Member.Ordered.pairwise {casing : Casing} {members : List Member}
    (h : Member.Ordered casing members) :
  members.Pairwise fun m n =>
    ¬ casing.same m.text n.text = true ∧ ¬ casing.leads m.text n.text = true
  := by
  apply List.Pairwise.imp _ h
  intro m n hlead
  exact ⟨fun hsame => hlead (Casing.leads_of_same hsame), hlead⟩

namespace NamedClass

/-! ### The place of a new member -/

/-- A new member is put behind members that do not lead it and in front of one that does,
or at the end. -/
theorem place_eq (casing : Casing) (new : Member) (members : List Member) :
  ∃ before after, members = before ++ after ∧
    place casing new members = before ++ new :: after ∧
    (∀ m ∈ before, ¬ casing.leads m.text new.text = true) ∧
    ∀ m ∈ after.head?, casing.leads m.text new.text = true
  := by
  induction members with
  | nil =>
      refine ⟨[], [], rfl, rfl, List.forall_mem_nil _, ?_⟩
      intro m hm
      cases hm
  | cons m ms ih =>
      rw [place]
      split
      · next hlead =>
        refine ⟨[], m :: ms, rfl, rfl, List.forall_mem_nil _, ?_⟩
        intro n hn
        obtain rfl := Option.some.inj hn
        apply hlead
      · next hlead =>
        obtain ⟨before, after, rfl, hplace, hbefore, hafter⟩ := ih
        refine ⟨m :: before, after, rfl, ?_, ?_, hafter⟩
        · rw [hplace, List.cons_append]
        · exact List.forall_mem_cons.mpr ⟨hlead, hbefore⟩

/-- A text that is led by the first one of some members in order does not lead any of them,
unless it is the same as the first one. -/
theorem not_leads_of_ordered {casing : Casing} {text : Bytes} {members : List Member}
    (h : Member.Ordered casing members)
    (hhead : ∀ m ∈ members.head?, casing.leads m.text text = true)
    (hnew : ∀ m ∈ members, ¬ casing.same m.text text = true) :
  ∀ n ∈ members, ¬ casing.leads text n.text = true
  := by
  cases members with
  | nil => apply List.forall_mem_nil
  | cons m ms =>
      have hm : casing.leads m.text text = true := hhead m rfl
      intro n hn hlead
      rcases List.mem_cons.mp hn with rfl | hn
      · apply hnew n List.mem_cons_self (Casing.same_of_leads hm hlead)
      · apply (List.pairwise_cons.mp h).1 n hn (Casing.leads_trans hm hlead)

theorem ordered_place {casing : Casing} {new : Member} {members : List Member}
    (h : Member.Ordered casing members)
    (hnew : ∀ m ∈ members, ¬ casing.same m.text new.text = true) :
  Member.Ordered casing (place casing new members)
  := by
  obtain ⟨before, after, rfl, hplace, hbefore, hafter⟩ := place_eq casing new members
  obtain ⟨hb, ha, hba⟩ := List.pairwise_append.mp h
  have hnew' := not_leads_of_ordered ha hafter
    fun m hm => hnew m (List.mem_append_right before hm)
  rw [hplace]
  apply List.pairwise_append.mpr
  refine ⟨hb, List.pairwise_cons.mpr ⟨hnew', ha⟩, ?_⟩
  intro m hm
  exact List.forall_mem_cons.mpr ⟨hbefore m hm, hba m hm⟩

/-! ### One change of a class -/

theorem has_iff (c : NamedClass) (text : Bytes) :
  c.has text = true ↔ ∃ m ∈ c.members, c.casing.same m.text text = true
  := List.any_eq_true

/-- A class has its members in order. -/
def Ordered (c : NamedClass) : Prop := Member.Ordered c.casing c.members

theorem Ordered.add {c : NamedClass} (h : c.Ordered) (m : Member) :
  (c.add m).2.Ordered
  := by
  rw [NamedClass.add]
  split
  · apply h
  · next hhas =>
    rw [has_iff] at hhas
    apply ordered_place h
    intro n hn hsame
    apply hhas ⟨n, hn, hsame⟩

/-- Whatever is offered to a class one after the other, its members stay in order. -/
theorem Ordered.foldl_add {c : NamedClass} (h : c.Ordered) (members : List Member) :
  (members.foldl (fun d m => (d.add m).2) c).Ordered
  := by
  induction members generalizing c with
  | nil => apply h
  | cons m ms ih => apply ih (h.add m)

/-- With another comparison the members are offered again to a class without members. -/
theorem Ordered.setCasing {c : NamedClass} (h : c.Ordered) (casing : Casing) :
  (c.setCasing casing).Ordered
  := by
  rw [NamedClass.setCasing]
  split
  · apply h
  · apply Ordered.foldl_add
    apply List.Pairwise.nil

/-! ### Histories -/

/-- What may happen to a class. -/
inductive Change where
  /-- A text is offered, with a replacement or without one. -/
  | offer (text : Bytes) (replacement : Option Bytes)
  /-- The comparison is set. -/
  | setCasing (casing : Casing)

/-- The class after a change. -/
def change (c : NamedClass) : Change → NamedClass
  | .offer text replacement => (c.add (.ofText text replacement)).2
  | .setCasing casing => c.setCasing casing

theorem name_change (c : NamedClass) (x : Change) :
  (c.change x).name = c.name
  := by
  cases x with
  | offer text replacement => apply name_add
  | setCasing casing => apply name_setCasing

/-- The class after some changes, one after the other. -/
def after (c : NamedClass) (history : List Change) : NamedClass :=
  history.foldl change c

theorem Ordered.change {c : NamedClass} (h : c.Ordered) (x : Change) :
  (c.change x).Ordered
  := by
  cases x with
  | offer text replacement => apply h.add
  | setCasing casing => apply h.setCasing

theorem Ordered.after {c : NamedClass} (h : c.Ordered) (history : List Change) :
  (c.after history).Ordered
  := by
  induction history generalizing c with
  | nil => apply h
  | cons x xs ih => apply ih (h.change x)

/-- Whatever has happened to a class, no two of its members are the same and none leads a
later one.  A text that is offered then is a duplicate exactly when the class has the same
text, and the class stays as it was; any other text is put in one place among the members,
which stay as they were. -/
theorem ordered_after_and_add (name : Bytes) (history : List Change) :
  let c := (new name).after history
  c.members.Pairwise (fun m n =>
      ¬ c.casing.same m.text n.text = true ∧ ¬ c.casing.leads m.text n.text = true) ∧
    ∀ text replacement,
      ((∃ m ∈ c.members, c.casing.same m.text text = true) →
        c.add (.ofText text replacement) = (.duplicate, c)) ∧
      ((¬ ∃ m ∈ c.members, c.casing.same m.text text = true) →
        ∃ before after, c.members = before ++ after ∧
          c.add (.ofText text replacement) =
            (.added, { c with members := before ++ .ofText text replacement :: after }))
  := by
  intro c
  have hnew : (new name).Ordered := List.Pairwise.nil
  use (hnew.after history).pairwise
  intro text replacement
  rw [← has_iff]
  constructor
  · intro hhas
    rw [add, Member.ofText, if_pos hhas]
  · intro hhas
    obtain ⟨before, after, hmembers, hplace, -⟩ :=
      place_eq c.casing (.ofText text replacement) c.members
    use before, after, hmembers
    rw [add, Member.ofText, if_neg hhas, ← Member.ofText, hplace]

end NamedClass

end Respell
