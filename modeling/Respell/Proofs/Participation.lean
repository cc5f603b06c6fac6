import Respell.Proofs.Search.Soundness

/-!
# Which groups take part in a match

Along a way captures are only ever set, and only those with the number of a group.  So a group
whose capture is not set at the end of a way was not repeated on it at all, and the same way leads
along the pattern in which this group cannot be repeated.
-/

namespace Respell

/-! ### What is captured along a way -/

namespace Captures

/-- What is set in `c` is set in `c'`. -/
def StaySet (c c' : Captures Bytes) : Prop :=
  ∀ number, (c.get? number).isSome = true → (c'.get? number).isSome = true

/-- Nothing but the captures with some numbers is other in `c'` than in `c`. -/
def SameBut (numbers : List Nat) (c c' : Captures Bytes) : Prop :=
  ∀ number, number ∉ numbers → c'.get? number = c.get? number

instance : IsPreorder (Captures Bytes) StaySet where
  refl _ _ h := h
  trans _ _ _ h h' number hset := h' number (h number hset)

instance (numbers : List Nat) : IsPreorder (Captures Bytes) (SameBut numbers) where
  refl _ _ _ := rfl
  trans _ _ _ h h' number hnumber := (h' number hnumber).trans (h number hnumber)

theorem staySet_put (c : Captures Bytes) (number : Nat) (text : Bytes) :
  StaySet c (c.put number text)
  := by
  intro n hset
  rw [get?_put]
  split
  · rfl
  · exact hset

theorem sameBut_put {numbers : List Nat} {number : Nat} (h : number ∈ numbers)
    (c : Captures Bytes) (text : Bytes) :
  SameBut numbers c (c.put number text)
  := by
  intro n hn
  rw [get?_put, if_neg]
  rintro ⟨rfl, -⟩
  exact hn h

end Captures

namespace Way

/-- The captures at the end of the way are related to those at its beginning. -/
def Relates (R : Captures Bytes → Captures Bytes → Prop) (W : Way) : Prop :=
  W.Within fun a _ b => R a.captures b.captures

variable {R : Captures Bytes → Captures Bytes → Prop} [IsPreorder (Captures Bytes) R]

theorem composes_captures :
  Composes fun a _ b => R a.captures b.captures
  where
  refl _ := refl_of R _
  trans h h' := trans_of R h h'

theorem relates_copyByte (accepts : UInt8 → Bool) :
  (copyByte accepts).Relates R
  := by
  rintro a t b ⟨c, -, -, hcaptures, -⟩
  rw [hcaptures]
  apply refl_of R

theorem relates_replaceText (casing : Casing) (text replacement : Bytes) :
  (replaceText casing text replacement).Relates R
  := by
  rintro a t b ⟨s, -, -, hcaptures, -⟩
  rw [hcaptures]
  apply refl_of R

theorem Relates.enclose {W : Way} (hW : W.Relates R) {number : Nat}
    (hput : ∀ c text, R c (c.put number text)) (replacement : Option Bytes) :
  (W.enclose number replacement).Relates R
  := by
  rintro a t c ⟨s, b, h, -, rfl⟩
  apply trans_of R (hW a s b h)
  apply hput

end Way

namespace Ways

variable (w : Ways) {R : Captures Bytes → Captures Bytes → Prop} [IsPreorder (Captures Bytes) R]

theorem relates_leaf (reps : Reps) (content : Leaf) :
  (w.leaf reps content).Relates R
  := by
  apply w.within_leaf Way.composes_captures reps Way.relates_copyByte
  · exact fun a => refl_of R a.captures
  · exact fun text replacement _ => Way.relates_replaceText .folded text replacement
  · rintro id - a t b ⟨c, -, m, -, hw⟩
    exact Way.relates_replaceText _ _ _ a t b hw

/-- A relation between captures that admits a capture with the number of each group of a chain
holds along the ways of this chain. -/
theorem relates_chain {nodes : List Node}
    (hput : ∀ number ∈ Node.groupNumbersOfChain nodes, ∀ c text, R c (c.put number text)) :
  (w.chain nodes).Relates R
  := by
  apply w.within_chain Way.composes_captures
  · exact fun content reps _ => w.relates_leaf reps content
  · intro number branches reps ho b _ W hW
    have hmem := Node.mem_groupNumbersOfChain_of_occurs ho
    exact Way.Relates.enclose hW (hput number hmem) b.replacement

/-- What is captured stays captured, though it may be replaced. -/
theorem staySet_chain (nodes : List Node) :
  (w.chain nodes).Relates Captures.StaySet
  := w.relates_chain (fun number _ c text => c.staySet_put number text)

/-- Nothing is captured but with the numbers of the groups. -/
theorem sameBut_chain (nodes : List Node) :
  (w.chain nodes).Relates (Captures.SameBut (Node.groupNumbersOfChain nodes))
  := w.relates_chain (fun _ hnumber c text => Captures.sameBut_put hnumber c text)

end Ways

/-! ### Patterns without a group -/

namespace Node

mutual

/-- The node with no branches left in the groups of the given number, at every depth.  Such a
group cannot be repeated. -/
def without (number : Nat) : Node → Node
  | leaf content reps => leaf content reps
  | group k branches reps =>
    group k (if k = number then [] else branchesWithout number branches) reps

/-- The chain with no branches left in the groups of the given number. -/
def chainWithout (number : Nat) : List Node → List Node
  | [] => []
  | n :: ns => n.without number :: chainWithout number ns

/-- The branch with no branches left in the groups of the given number within it. -/
def branchWithout (number : Nat) : Branch Node → Branch Node
  | ⟨nodes, replacement⟩ => ⟨chainWithout number nodes, replacement⟩

/-- The branches with no branches left in the groups of the given number within them. -/
def branchesWithout (number : Nat) : List (Branch Node) → List (Branch Node)
  | [] => []
  | b :: bs => branchWithout number b :: branchesWithout number bs

end

theorem mem_branchesWithout {number : Nat} {branches : List (Branch Node)} {b : Branch Node}
    (h : b ∈ branches) :
  ⟨chainWithout number b.nodes, b.replacement⟩ ∈ branchesWithout number branches
  := by
  induction branches with
  | nil => cases h
  | cons c bs ih =>
      rw [branchesWithout]
      obtain rfl | h := List.mem_cons.mp h
      · cases b
        apply List.mem_cons_self
      · apply List.mem_cons_of_mem _ (ih h)

end Node

namespace Way

variable {U : Place → Prop}

/-- Repetitions stay repetitions of another kind when each of them does that leads to a place in
`U`, if it also comes from a place in `U` then. -/
theorem Times.impBack {V W : Nat → Way} {i j : Nat} {a b : Place} {t : Bytes}
    (hU : ∀ n a t b, V n a t b → U b → U a) (h : ∀ n a t b, V n a t b → U b → W n a t b)
    (times : Times V i j a t b) (hb : U b) :
  Times W i j a t b ∧ U a
  := by
  induction times with
  | nil => exact ⟨Times.nil, hb⟩
  | cons first more ih =>
      obtain ⟨more', hc⟩ := ih hb
      exact ⟨Times.cons (h _ _ _ _ first hc) more', hU _ _ _ _ first hc⟩

/-- Rounds stay rounds when each repetition stays one that leads to a place in `U`, if it also
comes from a place in `U` then. -/
theorem Rounds.impBack {V W : Way} {follows : Nat → Place → Place → Prop} {reps : Reps}
    {a b : Place} {t : Bytes} (hU : ∀ a t b, V a t b → U b → U a)
    (h : ∀ a t b, V a t b → U b → W a t b) (rounds : Rounds V follows reps a t b) (hb : U b) :
  Rounds W follows reps a t b
  := by
  have hbefore : ∀ {k b t}, U b → Times (followed V follows) 0 k a t b →
      Times (followed W follows) 0 k a t b := by
    intro k b t hb times
    refine (times.impBack (fun n a t b hv => hU a t b hv.1) ?_ hb).1
    intro n a t b hv hb
    exact ⟨h a t b hv.1 hb, hv.2⟩
  cases rounds with
  | none least => apply Rounds.none least
  | some before last bounds =>
      apply Rounds.some (hbefore (hU _ _ _ last hb) before) (h _ _ _ last hb) bounds
  | idle before last nothing most =>
      apply Rounds.idle (hbefore (hU _ _ _ last.1 hb) before) ⟨h _ _ _ last.1 hb, last.2⟩ nothing
        most

end Way

namespace Ways

/-- Nothing is captured with the given number at the place. -/
def Unset (number : Nat) (a : Place) : Prop := a.captures.get? number = none

variable {lexicon : Lexicon} {number : Nat}

theorem unset_of_relates {W : Way} (hW : W.Relates Captures.StaySet) {a b : Place} {t : Bytes}
    (hw : W a t b) (hb : Unset number b) :
  Unset number a
  := by
  rw [Unset, ← Option.not_isSome_iff_eq_none] at hb ⊢
  exact fun ha => hb (hW a t b hw number ha)

/-- After a repetition of a group its capture is set. -/
theorem not_unset_of_branchOf (w : Ways) (hnumber : number < captureCount)
    {branches : List (Branch Node)} {a b : Place} {t : Bytes}
    (hw : w.branchOf number branches a t b) :
  ¬ Unset number b
  := by
  obtain ⟨c, -, hw⟩ := (w.branchOf_iff number branches a t b).mp hw
  rw [branch_eq] at hw
  obtain ⟨s, d, -, -, rfl⟩ := hw
  rw [Unset, Place.capture, Captures.get?_put, if_pos ⟨rfl, hnumber⟩]
  apply Option.some_ne_none

theorem chain_without_of_nodes {nodes : List Node}
    (h : ∀ n ∈ nodes, ∀ a t b, (every lexicon).node n a t b → Unset number b →
      (every lexicon).node (n.without number) a t b)
    {a b : Place} {t : Bytes} (hw : (every lexicon).chain nodes a t b) (hb : Unset number b) :
  (every lexicon).chain (Node.chainWithout number nodes) a t b
  := by
  induction nodes generalizing a b t with
  | nil => exact hw
  | cons n ns ih =>
      obtain ⟨s, c, t, hn, hns, rfl⟩ := hw
      have hc : Unset number c := unset_of_relates (staySet_chain _ ns) hns hb
      refine ⟨s, c, t, h n List.mem_cons_self a s c hn hc, ?_, rfl⟩
      exact ih (fun m hm => h m (List.mem_cons_of_mem n hm)) hns hb

/-- A way of a node at whose end a capture is not set does without the group of that capture. -/
theorem node_without (hnumber : number < captureCount) (n : Node) :
  ∀ a t b, (every lexicon).node n a t b → Unset number b →
    (every lexicon).node (n.without number) a t b
  := by
  induction n using Node.ind with
  | leaf content reps =>
      intro a t b hw _
      rw [Node.without]
      exact hw
  | group k branches reps ih =>
      intro a t b hw hb
      rw [Node.without]
      have hstay : ((every lexicon).branchOf k branches).Relates Captures.StaySet :=
        within_branchOf _ fun b _ => Way.Relates.enclose (staySet_chain _ b.nodes)
          (fun c text => c.staySet_put k text) b.replacement
      by_cases hk : k = number
      · subst hk
        rw [if_pos rfl]
        cases hw with
        | none least => exact Way.Rounds.none least
        | some before last => cases not_unset_of_branchOf _ hnumber last hb
        | idle before last => cases not_unset_of_branchOf _ hnumber last.1 hb
      · rw [if_neg hk]
        have hback : ∀ a t b, (every lexicon).branchOf k branches a t b → Unset number b →
            Unset number a := fun _ _ _ hw hb => unset_of_relates hstay hw hb
        refine Way.Rounds.impBack (V := branchOf _ k branches) hback ?_ hw hb
        intro a t b hw hb
        obtain ⟨c, hc, hbranch⟩ := (branchOf_iff _ k branches a t b).mp hw
        apply (branchOf_iff _ k _ a t b).mpr
        refine ⟨_, Node.mem_branchesWithout hc, ?_⟩
        rw [branch_eq] at hbranch ⊢
        obtain ⟨s, d, hnodes, ht, rfl⟩ := hbranch
        refine ⟨s, d, ?_, ht, rfl⟩
        apply chain_without_of_nodes (ih c hc) hnodes
        rwa [Unset, Place.capture, Captures.get?_put, if_neg fun h => hk h.1] at hb

/-- A way at whose end a capture is not set leads along the chain without the group of that
capture. -/
theorem chain_without (hnumber : number < captureCount) {nodes : List Node} {a b : Place}
    {t : Bytes} (hw : (every lexicon).chain nodes a t b) (hb : Unset number b) :
  (every lexicon).chain (Node.chainWithout number nodes) a t b
  := chain_without_of_nodes (fun n _ => node_without hnumber n) hw hb

end Ways

/-! ### Matches -/

theorem Match.get?_ofWay (word t : Bytes) (b : Place) (number : Nat) :
  (ofWay word t b).captures.get? number
    = if number = 0 then some (Utf8.decode t) else (b.captures.get? number).map Utf8.decode
  := by
  rw [ofWay, Captures.get?_put]
  by_cases h : number = 0
  · rw [if_pos h, if_pos ⟨h.symm, by decide⟩]
  · rw [if_neg h, if_neg fun h' => h h'.1.symm, Captures.get?_map]

/-- The match is made by a way on which no group with the given number is repeated. -/
def Match.MadeWithout (pattern : Pattern) (lexicon : Lexicon) (word : Bytes) (number : Nat)
    (m : Match) : Prop :=
  ∃ t b, (Ways.every lexicon).chain (Node.chainWithout number pattern.nodes) (.start word) t b ∧
    m = ofWay word t b

namespace Pattern

variable {pattern : Pattern} {lexicon : Lexicon} {word : Bytes} {m : Match}

/-- The longest match captures the whole text under number 0, and otherwise nothing but under
the numbers of groups.  A group under whose number it captures nothing was not repeated. -/
theorem captures_longestMatch? (h : pattern.longestMatch? lexicon word = some m) :
  m.captures.get? 0 ≠ none ∧
    (∀ number, number ≠ 0 → number ∉ Node.groupNumbersOfChain pattern.nodes →
      m.captures.get? number = none) ∧
    ∀ number < captureCount, m.captures.get? number = none →
      m.MadeWithout pattern lexicon word number
  := by
  obtain ⟨p, hp, rfl⟩ := Option.map_eq_some_iff.mp h
  obtain ⟨t, b, hw, rfl⟩ := exists_way_of_longestPath? hp
  rw [Match.ofPath_along]
  refine ⟨?_, ?_, ?_⟩
  · rw [Match.get?_ofWay, if_pos rfl]
    apply Option.some_ne_none
  · intro number hzero hnumber
    have hsame := Ways.sameBut_chain _ _ _ _ _ hw number hnumber
    rw [Match.get?_ofWay, if_neg hzero, hsame, Place.start, Captures.get?_none, Option.map_none]
  · intro number hlt hnone
    have hzero : number ≠ 0 := by
      rintro rfl
      rw [Match.get?_ofWay] at hnone
      cases hnone
    rw [Match.get?_ofWay, if_neg hzero, Option.map_eq_none_iff] at hnone
    exact ⟨t, b, Ways.chain_without hlt hw hnone, rfl⟩

/-- Where the groups are numbered from 1 on, the longest match captures nothing beyond them, and
each of them under whose number it captures nothing was not repeated. -/
theorem captures_of_numbers
    (hnumbers : Node.groupNumbersOfChain pattern.nodes = List.range' 1 pattern.groups)
    (h : pattern.longestMatch? lexicon word = some m) :
  m.captures.get? 0 ≠ none ∧
    (∀ i, pattern.groups < i → m.captures.get? i = none) ∧
    ∀ i < captureCount, m.captures.get? i = none → i ≤ pattern.groups →
      1 ≤ i ∧ i ∈ Node.groupNumbersOfChain pattern.nodes ∧ m.MadeWithout pattern lexicon word i
  := by
  obtain ⟨hzero, hothers, hwithout⟩ := captures_longestMatch? h
  refine ⟨hzero, ?_, ?_⟩
  · intro i hi
    apply hothers i (Nat.ne_zero_of_lt hi)
    rw [hnumbers, List.mem_range'_1]
    omega
  · intro i hlt hnone hle
    have hpos : 1 ≤ i := by
      apply Nat.one_le_iff_ne_zero.mpr
      rintro rfl
      exact hzero hnone
    refine ⟨hpos, ?_, hwithout i hlt hnone⟩
    rw [hnumbers, List.mem_range'_1]
    omega

end Pattern

end Respell
