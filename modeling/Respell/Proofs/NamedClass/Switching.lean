import Mathlib.Data.List.Induction
import Respell.Proofs.MemberOrder
import Respell.Proofs.SecondReading

/-!
# Switching the comparison of a class

When the comparison of a class is changed its members are offered to it again.  Members that are
in order under the new comparison are put one behind the other, so they stay as they are.  This
is so when case begins to count, as a text that leads another one does so in any case too.  When
case ceases to count some members become the same, and of those the first one stays.
-/

namespace Respell

/-- A text that leads another one leads it in any case. -/
theorem Casing.leads_folded_of_exact {s t : Bytes} (h : Casing.exact.leads s t = true) :
  Casing.folded.leads s t = true
  := by
  rw [leads_iff] at h ⊢
  have hkeys := h.map Byte.lower
  rwa [List.map_map, List.map_map] at hkeys

namespace Member

theorem Ordered.exact {members : List Member} (h : Ordered .folded members) :
  Ordered .exact members
  := h.imp fun hmn hlead => hmn (Casing.leads_folded_of_exact hlead)

/-- The members with no member in front of them that is the same. -/
def firsts (casing : Casing) (members : List Member) : List Member :=
  (members.zipIdx.filter fun x => !(members.take x.2).any (casing.same ·.text x.1.text)).map
    Prod.fst

theorem firsts_concat (casing : Casing) (members : List Member) (m : Member) :
  firsts casing (members ++ [m]) =
    firsts casing members ++ if members.any (casing.same ·.text m.text) then [] else [m]
  := by
  have htake : ∀ x ∈ members.zipIdx, (members ++ [m]).take x.2 = members.take x.2 := by
    rintro ⟨n, i⟩ hx
    have hlt := List.snd_lt_of_mem_zipIdx hx
    apply List.take_append_of_le_length
    omega
  have hfilter := List.filter_congr (l := members.zipIdx) fun x hx =>
    congrArg (fun ms => !List.any ms (casing.same ·.text x.1.text)) (htake x hx)
  have hlast : (members ++ [m]).take (0 + members.length) = members := by
    rw [Nat.zero_add, List.take_left]
  rw [firsts, List.zipIdx_append, List.filter_append, List.map_append, hfilter]
  apply congrArg (firsts casing members ++ ·)
  rw [List.zipIdx_singleton, List.filter_singleton]
  dsimp only
  rw [hlast]
  cases members.any (casing.same ·.text m.text) with
  | false => rfl
  | true => rfl

theorem firsts_sublist (casing : Casing) (members : List Member) :
  (firsts casing members).Sublist members
  := by
  have hmap := (List.filter_sublist (l := members.zipIdx)
    (p := fun x => !(members.take x.2).any (casing.same ·.text x.1.text))).map Prod.fst
  rwa [List.zipIdx_map_fst] at hmap

end Member

namespace NamedClass

variable {c : NamedClass} {m : Member}

/-! ### Members in order -/

/-- A member that is led by no other one is put behind the others. -/
theorem add_of_last (h : ∀ n ∈ c.members, ¬ c.casing.leads n.text m.text = true) :
  (c.add m).2 = { c with members := c.members ++ [m] }
  := by
  have hhas : ¬ c.has m.text = true := by
    rw [has_iff]
    rintro ⟨n, hn, hsame⟩
    exact h n hn (Casing.leads_of_same hsame)
  obtain ⟨before, after, hmembers, hplace, -, hafter⟩ := place_eq c.casing m c.members
  have hnone : after = [] := by
    cases after with
    | nil => rfl
    | cons n after =>
        refine absurd (hafter n rfl) (h n ?_)
        rw [hmembers]
        exact List.mem_append_right before List.mem_cons_self
  rw [add, if_neg hhas, hplace, hmembers, hnone, List.append_nil]

/-- Members in order are put one behind the other. -/
theorem addAll_of_ordered {members : List Member}
    (h : Member.Ordered c.casing (c.members ++ members)) :
  c.addAll members = { c with members := c.members ++ members }
  := by
  induction members generalizing c with
  | nil =>
      rw [List.append_nil]
      rfl
  | cons m ms ih =>
      have hlast := add_of_last fun n hn =>
        (List.pairwise_append.mp h).2.2 n hn m List.mem_cons_self
      rw [List.append_cons] at h
      rw [addAll, List.foldl_cons, ← addAll, hlast, ih h, List.append_assoc]
      rfl

/-- Under a comparison that keeps its members in order a class has the same members. -/
theorem setCasing_of_ordered {casing : Casing} (h : Member.Ordered casing c.members) :
  c.setCasing casing = { c with casing }
  := by
  rw [setCasing]
  split
  · next heq => rw [← heq]
  · exact addAll_of_ordered (c := { c with casing, members := [] }) h

/-! ### Members that become the same -/

theorem perm_place (casing : Casing) (new : Member) (members : List Member) :
  (place casing new members).Perm (members ++ [new])
  := by
  obtain ⟨before, after, rfl, hplace, -⟩ := place_eq casing new members
  rw [hplace, List.append_assoc]
  apply List.Perm.append_left before
  exact (List.perm_append_singleton new after).symm

/-- Of members that are offered to a class without members those stay that are not the same as one
in front of them. -/
theorem perm_firsts_addAll (hc : c.members = []) (members : List Member) :
  (c.addAll members).members.Perm (Member.firsts c.casing members)
  := by
  induction members using List.reverseRecOn with
  | nil =>
      rw [addAll, List.foldl_nil, hc]
      rfl
  | append_singleton ms m ih =>
      -- The class has the text of each member that was offered, and no others.
      have hhas : (c.addAll ms).has m.text = true ↔
          ms.any (c.casing.same ·.text m.text) = true := by
        rw [List.any_eq_true]
        constructor
        · intro hhas
          obtain ⟨n, hn, hsame⟩ := (has_iff _ _).mp hhas
          rw [casing_addAll] at hsame
          exact ⟨n, (Member.firsts_sublist c.casing ms).subset (ih.subset hn), hsame⟩
        · rintro ⟨n, hn, hsame⟩
          obtain ⟨k, hk, hkn⟩ := (has_iff _ _).mp (has_foldl_add hn c)
          apply (has_iff _ _).mpr
          use k, hk
          rw [← addAll, casing_addAll] at hkn
          rw [casing_addAll]
          rw [Casing.same_iff] at hkn hsame ⊢
          exact hkn.trans hsame
      have hconcat : c.addAll (ms ++ [m]) = ((c.addAll ms).add m).2 := by
        rw [addAll, List.foldl_append]
        rfl
      rw [hconcat, Member.firsts_concat, add]
      by_cases h : (c.addAll ms).has m.text = true
      · rw [if_pos h, if_pos (hhas.mp h), List.append_nil]
        exact ih
      · rw [if_neg h, if_neg fun hany => h (hhas.mpr hany)]
        exact (perm_place _ _ _).trans (ih.append_right [m])

/-- Whatever has happened to a class, its members stay as they are when case begins to count, and
the class is the same again when case ceases to count after that.  If case has counted before, then
of its members those stay that are not the same now as one in front of them, and there are no
others. -/
theorem setCasing_after (name : Bytes) (history : List Change) :
  let c := (new name).after history
  match c.casing with
  | .folded =>
    c.setCasing .exact = { c with casing := .exact } ∧ (c.setCasing .exact).setCasing .folded = c
  | .exact =>
    (c.setCasing .folded).casing = .folded ∧
      (c.setCasing .folded).members.Perm (Member.firsts .folded c.members)
  := by
  intro c
  have hnew : (new name).Ordered := List.Pairwise.nil
  have hordered : c.Ordered := hnew.after history
  split
  · next hcasing =>
    rw [Ordered, hcasing] at hordered
    have hexact := setCasing_of_ordered hordered.exact
    have hback := setCasing_of_ordered (c := { c with casing := .exact }) hordered
    rw [hexact, hback, ← hcasing]
    exact ⟨rfl, rfl⟩
  · next hcasing =>
    have hne : ¬ c.casing = .folded := fun h => nomatch hcasing.symm.trans h
    have hempty : ({ c with casing := .folded, members := [] } : NamedClass).members = [] := rfl
    rw [setCasing, if_neg hne]
    exact ⟨casing_addAll _ _, perm_firsts_addAll hempty c.members⟩

end NamedClass

end Respell
