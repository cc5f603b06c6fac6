import Respell.Proofs.Way

/-!
# Ways in the order of preference

The ways along a pattern whose groups and classes are not repeated, as a list that is
ordered by the choices made along the pattern from left to right.  More repetitions are
preferred to fewer ones, earlier branches and members to later ones, and a remainder to
nothing.
-/

namespace Respell

/-- The ways from a place, the preferred ones first: the text that each of them renders and
where it leads to. -/
abbrev Choice := Place → List (Bytes × Place)

namespace Choice

/-- Nothing is taken or rendered. -/
def stay : Choice := fun a => [([], a)]

/-- A choice followed by another one. -/
def comp (C D : Choice) : Choice := fun a =>
  (C a).flatMap fun x => (D x.2).map fun y => (x.1 ++ y.1, y.2)

/-- The given number of repetitions. -/
def times (C : Choice) : Nat → Choice
  | 0 => stay
  | n + 1 => C.comp (C.times n)

/-- As many repetitions as the bounds allow, and without a limit at most as many as there
are bytes. -/
def repeated (C : Choice) (reps : Reps) : Choice := fun a =>
  let most := reps.most.getD a.rest.length
  (List.range' reps.least (most + 1 - reps.least)).reverse.flatMap fun n => C.times n a

/-- A byte that satisfies a condition. -/
def copyByte (accepts : UInt8 → Bool) : Choice := fun a =>
  match a.rest with
  | [] => []
  | c :: rest => if accepts c then [([c], ⟨rest, a.captures⟩)] else []

/-- A copy of a text, for which its replacement is rendered. -/
def replaceText (casing : Casing) (text replacement : Bytes) : Choice := fun a =>
  if casing.leads text a.rest then
    [(replacement, ⟨a.rest.drop text.length, a.captures⟩)]
  else []

/-- A choice whose texts are replaced if a replacement is given, and then captured. -/
def enclose (C : Choice) (number : Nat) (replacement : Option Bytes) : Choice := fun a =>
  (C a).map fun x =>
    let t := replacement.getD x.1
    (t, x.2.capture number t)

variable (lexicon : Lexicon)

/-- The members of a class. -/
def member (id : ClassId) : Choice := fun a =>
  match lexicon.get? id with
  | none => []
  | some c => c.members.flatMap fun m => replaceText c.casing m.text m.replacement a

/-- The choice at a leaf. -/
def leaf (reps : Reps) : Leaf → Choice
  | .byte b => repeated (copyByte fun c => Casing.folded.key b = Casing.folded.key c) reps
  | .set members => repeated (copyByte members.contains) reps
  | .literal text replacement =>
    if text = [] then fun a => [(replacement, a)]
    else repeated (replaceText .folded text replacement) reps
  | .memberOf id => repeated (member lexicon id) reps
  | .wordEnd => fun a => if a.rest = [] ∨ reps.least = 0 then stay a else []
  | .remainder => fun a =>
    (a.rest, ⟨[], a.captures⟩) :: if reps.least = 0 then stay a else []

mutual

/-- The choice at a node. -/
def node : Node → Choice
  | .leaf content reps => leaf lexicon reps content
  | .group number branches reps => repeated (branchOf number branches) reps

/-- The choices along a chain. -/
def chain : List Node → Choice
  | [] => stay
  | n :: ns => comp (node n) (chain ns)

/-- The choices along a branch of the group with the given number. -/
def branch (number : Nat) : Branch Node → Choice
  | ⟨nodes, replacement⟩ => enclose (chain nodes) number replacement

/-- The branches of the group with the given number. -/
def branchOf (number : Nat) : List (Branch Node) → Choice
  | [] => fun _ => []
  | b :: bs => fun a => branch number b a ++ branchOf number bs a

end

theorem branch_eq (number : Nat) (b : Branch Node) :
  branch lexicon number b = (chain lexicon b.nodes).enclose number b.replacement
  := by
  cases b
  rw [branch]

theorem branchOf_eq_flatMap (number : Nat) (branches : List (Branch Node)) :
  branchOf lexicon number branches =
    fun a => branches.flatMap fun b => branch lexicon number b a
  := by
  induction branches with
  | nil => rfl
  | cons b bs ih =>
      funext a
      rw [branchOf, ih]
      rfl

/-! ### At most one repetition -/

theorem comp_stay (C : Choice) :
  C.comp stay = C
  := by
  funext a
  simp [comp, stay]

/-- A node that may not be repeated at all takes nothing. -/
theorem repeated_of_never (C : Choice) {reps : Reps} (h : reps.most = some 0) :
  C.repeated reps = stay
  := by
  have hleast : reps.least = 0 := Nat.le_zero.mp (reps.least_le 0 h)
  funext a
  simp [repeated, h, hleast, times]

/-- At most one repetition is one, or else none if none is needed. -/
theorem repeated_of_once (C : Choice) {reps : Reps} (h : reps.most = some 1) (a : Place) :
  C.repeated reps a = C a ++ if reps.least = 0 then stay a else []
  := by
  have hleast := reps.least_le 1 h
  have hzero : C.times 0 = stay := rfl
  have hone : C.times 1 = C := C.comp_stay
  rw [repeated, h]
  obtain hleast | hleast := Nat.le_one_iff_eq_zero_or_eq_one.mp hleast
  · rw [hleast]
    simp [List.range', hzero, hone]
  · rw [hleast]
    simp [hone]

/-! ### A choice lists the ways -/

/-- The choice consists of the ways of `W`. -/
def Lists (C : Choice) (W : Way) : Prop := ∀ a t b, (t, b) ∈ C a ↔ W a t b

theorem lists_stay :
  stay.Lists Way.stay
  := by
  intro a t b
  rw [stay, List.mem_singleton, Prod.mk.injEq]
  rfl

variable {C D : Choice} {V W : Way}

theorem Lists.comp (hC : C.Lists V) (hD : D.Lists W) :
  (C.comp D).Lists (Way.comp V W)
  := by
  intro a u c
  constructor
  · intro h
    obtain ⟨⟨s, b⟩, hs, h⟩ := List.mem_flatMap.mp h
    obtain ⟨⟨t, c⟩, ht, h⟩ := List.mem_map.mp h
    cases h
    exact ⟨s, b, t, (hC a s b).mp hs, (hD b t c).mp ht, rfl⟩
  · rintro ⟨s, b, t, hs, ht, rfl⟩
    apply List.mem_flatMap.mpr
    use (s, b), (hC a s b).mpr hs
    apply List.mem_map.mpr
    use (t, c), (hD b t c).mpr ht

theorem Lists.enclose (hC : C.Lists W) (number : Nat) (replacement : Option Bytes) :
  (C.enclose number replacement).Lists (W.enclose number replacement)
  := by
  intro a t c
  constructor
  · intro h
    obtain ⟨⟨s, b⟩, hs, h⟩ := List.mem_map.mp h
    cases h
    use s, b, (hC a s b).mp hs
  · rintro ⟨s, b, hs, rfl, rfl⟩
    apply List.mem_map.mpr
    use (s, b), (hC a s b).mpr hs

theorem Lists.times (hC : C.Lists W) (n i : Nat) :
  (C.times n).Lists (Way.Times (fun _ => W) i (i + n))
  := by
  induction n generalizing i with
  | zero =>
      intro a t b
      apply (lists_stay a t b).trans
      constructor
      · rintro ⟨rfl, rfl⟩
        apply Way.Times.nil
      · apply Way.Times.eq_stay
  | succ n ih =>
      intro a t c
      have ih := ih (i + 1)
      rw [Nat.add_right_comm] at ih
      apply (hC.comp ih a t c).trans
      constructor
      · rintro ⟨s, b, t, hs, ht, rfl⟩
        apply Way.Times.cons hs ht
      · intro h
        generalize hj : i + n + 1 = j at h
        cases h with
        | nil => omega
        | cons first more => exact ⟨_, _, _, first, hj ▸ more, rfl⟩

/-- Without a limit all repetitions are listed if each of them takes something. -/
theorem Lists.repeated (hC : C.Lists W) {reps : Reps}
    (hless : reps.most = none → ∀ a t b, W a t b → b.rest.length < a.rest.length) :
  (C.repeated reps).Lists (W.repeated reps)
  := by
  intro a t b
  have htimes : ∀ n, (t, b) ∈ C.times n a ↔ Way.Times (fun _ => W) 0 n a t b := by
    intro n
    rw [hC.times n 0 a t b, Nat.zero_add]
  have hbounds : ∀ n, Way.Times (fun _ => W) 0 n a t b →
      (n ∈ List.range' reps.least (reps.most.getD a.rest.length + 1 - reps.least) ↔
        reps.Admits n) := by
    intro n h
    rw [List.mem_range'_1, Reps.Admits]
    cases hm : reps.most with
    | none =>
        have := Way.length_le_of_times (hless hm) h
        simp only [Option.getD_none, Option.mem_def, reduceCtorEq, false_implies, implies_true,
          and_true]
        omega
    | some m =>
        have := reps.least_le m hm
        simp only [Option.getD_some, Option.mem_def, Option.some.injEq, forall_eq']
        omega
  constructor
  · intro h
    obtain ⟨n, hn, h⟩ := List.mem_flatMap.mp h
    rw [htimes] at h
    use n, (hbounds n h).mp (List.mem_reverse.mp hn)
  · rintro ⟨n, hn, h⟩
    apply List.mem_flatMap.mpr
    use n, List.mem_reverse.mpr ((hbounds n h).mpr hn)
    rwa [htimes]

theorem lists_copyByte (accepts : UInt8 → Bool) :
  (copyByte accepts).Lists (Way.copyByte accepts)
  := by
  rintro ⟨rest, captures⟩ t b
  cases rest with
  | nil =>
      constructor
      · intro h
        cases h
      · rintro ⟨c, -, h, -⟩
        cases h
  | cons c rest =>
      simp only [copyByte]
      constructor
      · intro h
        split at h
        · next hc =>
          cases List.mem_singleton.mp h
          use c, hc
        · cases h
      · obtain ⟨rest', captures'⟩ := b
        rintro ⟨c', hc, h, rfl, rfl⟩
        obtain ⟨rfl, rfl⟩ := List.cons.inj h
        rw [if_pos hc]
        apply List.mem_cons_self

theorem lists_replaceText (casing : Casing) (text replacement : Bytes) :
  (replaceText casing text replacement).Lists (Way.replaceText casing text replacement)
  := by
  rintro ⟨rest, captures⟩ t ⟨rest', captures'⟩
  simp only [replaceText]
  constructor
  · intro h
    split at h
    · next hlead =>
      cases List.mem_singleton.mp h
      use rest.take text.length, hlead
      use (List.take_append_drop _ _).symm, rfl
    · cases h
  · rintro ⟨s, hs, h, rfl, rfl⟩
    obtain rfl : rest = s ++ rest' := h
    rw [if_pos (Casing.leads_append_of_same hs rest'), Casing.length_eq_of_same hs,
      List.drop_left]
    apply List.mem_cons_self

theorem lists_member (id : ClassId) :
  (member lexicon id).Lists ((Ways.every lexicon).member id)
  := by
  intro a t b
  rw [member]
  split
  · next hc =>
    constructor
    · intro h
      cases h
    · rintro ⟨c, hc', -⟩
      cases hc.symm.trans hc'
  · next c hc =>
    constructor
    · intro h
      obtain ⟨m, hm, h⟩ := List.mem_flatMap.mp h
      use c, hc, m, hm
      apply (lists_replaceText _ _ _ a t b).mp h
    · rintro ⟨c', hc', m, hm, h⟩
      cases hc.symm.trans hc'
      apply List.mem_flatMap.mpr
      use m, hm
      apply (lists_replaceText _ _ _ a t b).mpr h

/-- A choice that is not made more than once lists the rounds. -/
theorem Lists.rounds (hC : C.Lists W) {reps : Reps} (h : ∃ m ∈ reps.most, m ≤ 1) :
  (C.repeated reps).Lists (Way.Rounds W (fun _ _ _ => True) reps)
  := by
  have hless : reps.most = none → ∀ a t b, W a t b → b.rest.length < a.rest.length := by
    obtain ⟨m, hm, -⟩ := h
    intro hnone
    cases hm.symm.trans hnone
  intro a t b
  rw [Way.rounds_iff_repeated h]
  apply hC.repeated hless

theorem lists_leaf {reps : Reps} {content : Leaf}
    (h : ¬ (Node.leaf content reps).Repeats) :
  (leaf lexicon reps content).Lists ((Ways.every lexicon).leaf reps content)
  := by
  cases content with
  | byte b =>
      apply (lists_copyByte _).repeated
      exact fun _ => Way.length_lt_of_copyByte _
  | set members =>
      apply (lists_copyByte _).repeated
      exact fun _ => Way.length_lt_of_copyByte _
  | literal text replacement =>
      rw [leaf, Ways.leaf]
      split
      · intro a t b
        rw [List.mem_singleton, Prod.mk.injEq]
      · next htext =>
        apply (lists_replaceText _ _ _).repeated
        exact fun _ => Way.length_lt_of_replaceText htext
  | memberOf id =>
      apply (lists_member lexicon id).rounds
      apply Reps.exists_most_le_one h
  | wordEnd =>
      intro a t b
      simp only [leaf, Ways.leaf]
      split
      · next hend => simp [hend, stay]
      · next hend => simp [hend]
  | remainder =>
      intro a t b
      simp only [leaf, Ways.leaf, List.mem_cons, Prod.mk.injEq]
      split
      · next hleast => simp [hleast, stay]
      · next hleast => simp [hleast]

theorem lists_chain_of_nodes {nodes : List Node}
    (h : ∀ n ∈ nodes, (node lexicon n).Lists ((Ways.every lexicon).node n)) :
  (chain lexicon nodes).Lists ((Ways.every lexicon).chain nodes)
  := by
  induction nodes with
  | nil => apply lists_stay
  | cons n ns ih =>
      apply (h n List.mem_cons_self).comp
      apply ih (fun m hm => h m (List.mem_cons_of_mem n hm))

theorem lists_branchOf {number : Nat} {branches : List (Branch Node)}
    (h : ∀ b ∈ branches, (chain lexicon b.nodes).Lists ((Ways.every lexicon).chain b.nodes)) :
  (branchOf lexicon number branches).Lists ((Ways.every lexicon).branchOf number branches)
  := by
  intro a t c
  rw [branchOf_eq_flatMap, List.mem_flatMap, Ways.branchOf_iff]
  apply exists_congr
  intro b
  apply and_congr_right
  intro hb
  rw [branch_eq, Ways.branch_eq]
  apply (h b hb).enclose

theorem lists_node (n : Node) (h : ∀ m : Node, m.Occurs [n] → ¬ m.Repeats) :
  (node lexicon n).Lists ((Ways.every lexicon).node n)
  := by
  induction n using Node.ind with
  | leaf content reps =>
      apply lists_leaf
      apply h _ (Node.Occurs.here List.mem_cons_self)
  | group number branches reps ih =>
      apply Lists.rounds
      · apply lists_branchOf
        intro b hb
        apply lists_chain_of_nodes
        intro n hn
        apply ih b hb n hn
        intro m hm
        apply h m (hm.ofBranch hb hn)
      · apply Reps.exists_most_le_one (h _ (Node.Occurs.here List.mem_cons_self))

/-- The choices along a chain in which no group or class is repeated are its ways. -/
theorem lists_chain {nodes : List Node}
    (h : ∀ n : Node, n.Occurs nodes → ¬ n.Repeats) :
  (chain lexicon nodes).Lists ((Ways.every lexicon).chain nodes)
  := by
  apply lists_chain_of_nodes
  intro n hn
  apply lists_node
  intro m hm
  apply h m (Node.Occurs.ofMem hn hm)

end Choice

end Respell
