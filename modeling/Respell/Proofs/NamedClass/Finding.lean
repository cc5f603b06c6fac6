import Respell.Proofs.MemberOrder

/-!
# Finding members one after the other

A search through a class goes on behind the member that it found last.  In this way it meets
every member that leads the candidate, in the order in which they stand in the class.  Members
that lead the same candidate lead each other, so in a class in order a longer one is met before
a shorter one, and what a search finds first is the longest there is.
-/

namespace Respell

namespace NamedClass

variable {c : NamedClass} {candidate : Bytes} {start i : Nat} {m : Member}

/-! ### One search -/

/-- What a search has passed over when it finds a member, and what is left behind the member. -/
theorem exists_drop_of_find? (h : c.find? candidate start = some (m, i)) :
  ∃ passed, i = start + passed.length ∧
    c.members.zipIdx.drop start = passed ++ (m, i) :: c.members.zipIdx.drop (i + 1) ∧
    (∀ x ∈ passed, ¬ c.casing.leads x.1.text candidate = true) ∧
    c.casing.leads m.text candidate = true
  := by
  obtain ⟨hlead, passed, after, hdrop, hpassed⟩ := List.find?_eq_some_iff_append.mp h
  have hget : (c.members.zipIdx.drop start)[passed.length]? = some (m, i) := by
    rw [hdrop, List.getElem?_append_right (Nat.le_refl _), Nat.sub_self]
    rfl
  have hi : i = start + passed.length := by
    rw [List.getElem?_drop, List.getElem?_zipIdx, Option.map_eq_some_iff] at hget
    obtain ⟨n, -, hn⟩ := hget
    rw [← (Prod.mk.inj hn).2, Nat.zero_add]
  have hafter : c.members.zipIdx.drop (i + 1) = after := by
    rw [hi, Nat.add_assoc, ← List.drop_drop, hdrop, List.drop_length_add_append]
    rfl
  refine ⟨passed, hi, hafter.symm ▸ hdrop, ?_, hlead⟩
  intro x hx
  simpa using hpassed x hx

/-- A search finds a member of the class, not in front of where it starts. -/
theorem lt_length_of_find? (h : c.find? candidate start = some (m, i)) :
  start ≤ i ∧ i < c.members.length
  := by
  obtain ⟨passed, hi, hdrop, -, -⟩ := exists_drop_of_find? h
  have hlength := congrArg List.length hdrop
  simp only [List.length_drop, List.length_zipIdx, List.length_append, List.length_cons] at hlength
  omega

/-! ### Searches one after the other -/

/-- What is found from an index on, with its indices, when each search starts behind the member
that was found last, until there is nothing to be found. -/
def foundFrom (c : NamedClass) (candidate : Bytes) (start : Nat) : List (Member × Nat) :=
  match h : c.find? candidate start with
  | none => []
  | some (m, i) => (m, i) :: c.foundFrom candidate (i + 1)
  termination_by c.members.length - start
  decreasing_by
    have hlt := lt_length_of_find? h
    omega

/-- The members from an index on that lead the candidate, with their indices. -/
def leadingFrom (c : NamedClass) (candidate : Bytes) (start : Nat) : List (Member × Nat) :=
  (c.members.zipIdx.drop start).filter (c.casing.leads ·.1.text candidate)

theorem mem_leadingFrom_iff :
  (m, i) ∈ c.leadingFrom candidate start ↔
    start ≤ i ∧ c.members[i]? = some m ∧ c.casing.leads m.text candidate = true
  := by
  have hmem : (m, i) ∈ c.members.zipIdx.drop start ↔ start ≤ i ∧ c.members[i]? = some m := by
    rw [List.mem_iff_getElem?]
    simp only [List.getElem?_drop, List.getElem?_zipIdx, Option.map_eq_some_iff, Prod.mk.injEq,
      Nat.zero_add]
    constructor
    · rintro ⟨j, n, hn, rfl, rfl⟩
      exact ⟨Nat.le_add_right start j, hn⟩
    · rintro ⟨hle, hm⟩
      have hi : start + (i - start) = i := Nat.add_sub_cancel' hle
      exact ⟨i - start, m, hi.symm ▸ hm, rfl, hi⟩
  rw [leadingFrom, List.mem_filter, hmem, and_assoc]

/-- If a member is found then the others are behind it. -/
theorem leadingFrom_of_some (h : c.find? candidate start = some (m, i)) :
  c.leadingFrom candidate start = (m, i) :: c.leadingFrom candidate (i + 1)
  := by
  obtain ⟨passed, -, hdrop, hpassed, hlead⟩ := exists_drop_of_find? h
  rw [leadingFrom, hdrop, List.filter_append, List.filter_eq_nil_iff.mpr hpassed,
    List.filter_cons_of_pos (by exact hlead)]
  rfl

theorem leadingFrom_of_none (h : c.find? candidate start = none) :
  c.leadingFrom candidate start = []
  := List.filter_eq_nil_iff.mpr (List.find?_eq_none.mp h)

/-- One search after the other finds all members that lead the candidate. -/
theorem foundFrom_eq_leadingFrom (c : NamedClass) (candidate : Bytes) (start : Nat) :
  c.foundFrom candidate start = c.leadingFrom candidate start
  := by
  fun_induction foundFrom c candidate start with
  | case1 start h => rw [leadingFrom_of_none h]
  | case2 start m i h ih => rw [leadingFrom_of_some h, ih]

/-! ### The longest first -/

/-- In a class in order the members that lead the candidate come from the longest to the
shortest. -/
theorem Ordered.leadingFrom (h : c.Ordered) (candidate : Bytes) (start : Nat) :
  (c.leadingFrom candidate start).Pairwise fun x y => y.1.text.length < x.1.text.length
  := by
  have hmap : (c.leadingFrom candidate start).map Prod.fst =
      (c.members.drop start).filter (c.casing.leads ·.text candidate) := by
    have hdrop : c.members.drop start = (c.members.zipIdx.drop start).map Prod.fst := by
      rw [List.map_drop, List.zipIdx_map_fst]
    rw [hdrop, List.filter_map]
    rfl
  have hsublist : ((c.leadingFrom candidate start).map Prod.fst).Sublist (c.leading candidate) := by
    rw [hmap]
    apply (List.drop_sublist start c.members).filter
  exact List.pairwise_map.mp ((h.leading candidate).sublist hsublist)

/-- Whatever has happened to a class, searching it from the front, each time behind the member
that was found last, finds the members that lead the candidate and no others, each of them once
and the longer ones first.  A search that starts anywhere finds nothing if no member from there
on leads the candidate, and otherwise the longest one of those that do. -/
theorem foundFrom_and_find?_after (name : Bytes) (history : List Change) (candidate : Bytes) :
  let c := (new name).after history
  c.foundFrom candidate 0 = c.members.zipIdx.filter (c.casing.leads ·.1.text candidate) ∧
    (c.foundFrom candidate 0).Pairwise (fun x y => y.1.text.length < x.1.text.length) ∧
    ∀ start,
      match c.find? candidate start with
      | none => ∀ n ∈ c.members.drop start, ¬ c.casing.leads n.text candidate = true
      | some (m, i) =>
        start ≤ i ∧ c.members[i]? = some m ∧ c.casing.leads m.text candidate = true ∧
          ∀ j n, start ≤ j → j ≠ i → c.members[j]? = some n →
            c.casing.leads n.text candidate = true → n.text.length < m.text.length
  := by
  intro c
  have hnew : (new name).Ordered := List.Pairwise.nil
  have hordered := (hnew.after history).leadingFrom candidate
  have hfound := c.foundFrom_eq_leadingFrom candidate
  refine ⟨hfound 0, hfound 0 ▸ hordered 0, ?_⟩
  intro start
  split
  · next h =>
    intro n hn hlead
    obtain ⟨j, hj⟩ := List.mem_iff_getElem?.mp hn
    rw [List.getElem?_drop] at hj
    have hmem := mem_leadingFrom_iff.mpr ⟨Nat.le_add_right start j, hj, hlead⟩
    rw [leadingFrom_of_none h] at hmem
    cases hmem
  · next m i h =>
    have hleading := leadingFrom_of_some h
    have hmem : (m, i) ∈ c.leadingFrom candidate start := hleading ▸ List.mem_cons_self
    obtain ⟨hle, hm, hlead⟩ := mem_leadingFrom_iff.mp hmem
    refine ⟨hle, hm, hlead, ?_⟩
    intro j n hj hne hn hnlead
    have hnmem : (n, j) ∈ c.leadingFrom candidate start := mem_leadingFrom_iff.mpr ⟨hj, hn, hnlead⟩
    -- Another member comes behind the one that is found, so it is shorter.
    rw [hleading] at hnmem
    rcases List.mem_cons.mp hnmem with heq | hnmem
    · exact absurd (Prod.mk.inj heq).2 hne
    · have hpairs := hordered start
      rw [hleading] at hpairs
      exact (List.pairwise_cons.mp hpairs).1 (n, j) hnmem

end NamedClass

end Respell
