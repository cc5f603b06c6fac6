import Mathlib.Data.List.Nodup
import Mathlib.Data.Option.Basic
import Respell.Proofs.Lexicon.Reachable
import Respell.Proofs.Search.Equal
import Respell.Rule
import Respell.Text.Utf8

/-!
# The order of members does not show

Members that were offered to a class in different orders may stand in different orders
afterwards.  But those of them that lead the same word lead each other, so the order of a class
has the longer ones of them in front.  A round of a repeated class sees no other members, hence
it is the same for all classes with the same members and the same comparison.
-/

namespace Respell

/-- Of two texts that lead the same word the one that is not longer leads the other one. -/
theorem Casing.leads_of_length_le {casing : Casing} {s t word : Bytes}
    (hs : casing.leads s word = true) (ht : casing.leads t word = true)
    (h : s.length ≤ t.length) :
  casing.leads s t = true
  := by
  apply Casing.leads_iff.mpr
  apply List.prefix_of_prefix_length_le (Casing.leads_iff.mp hs) (Casing.leads_iff.mp ht)
  rw [List.length_map, List.length_map]
  apply h

namespace NamedClass

/-- The classes compare in the same way and have the same members, in whatever order. -/
structure SameMembers (c d : NamedClass) : Prop where
  casing : c.casing = d.casing
  mem_iff : ∀ m, m ∈ c.members ↔ m ∈ d.members

theorem SameMembers.refl (c : NamedClass) :
  SameMembers c c
  := ⟨rfl, fun _ => Iff.rfl⟩

/-! ### Members that lead a word -/

/-- The members that lead a word, as they come in the class. -/
def leading (c : NamedClass) (word : Bytes) : List Member :=
  c.members.filter (c.casing.leads ·.text word)

variable {c d : NamedClass} {word : Bytes}

/-- In a class in order the members that lead a word come from the longest to the shortest. -/
theorem Ordered.leading (h : c.Ordered) (word : Bytes) :
  (c.leading word).Pairwise fun m n => n.text.length < m.text.length
  := by
  have hfilter := List.Pairwise.filter (c.casing.leads ·.text word) h
  apply hfilter.imp_of_mem
  intro m n hm hn hlead
  apply Nat.not_le.mp
  intro hle
  apply hlead
  apply Casing.leads_of_length_le (List.mem_filter.mp hm).2 (List.mem_filter.mp hn).2 hle

/-- The members that lead a word are the same list in classes with the same members. -/
theorem SameMembers.leading_eq (h : SameMembers c d) (hc : c.Ordered) (hd : d.Ordered)
    (word : Bytes) :
  c.leading word = d.leading word
  := by
  have hnodup : ∀ {c : NamedClass}, c.Ordered → (c.leading word).Nodup := by
    intro c hc
    apply (hc.leading word).imp
    rintro m n hlt rfl
    apply Nat.lt_irrefl _ hlt
  have hperm : (c.leading word).Perm (d.leading word) := by
    apply (List.perm_ext_iff_of_nodup (hnodup hc) (hnodup hd)).mpr
    intro m
    rw [leading, leading, List.mem_filter, List.mem_filter, h.mem_iff, h.casing]
  apply hperm.eq_of_pairwise _ (hc.leading word) (hd.leading word)
  intro m n _ _ hmn hnm
  exact absurd hmn (Nat.lt_asymm hnm)

/-! ### Offers in different orders -/

/-- The class after some members were offered to it, one after the other. -/
def addAll (c : NamedClass) (members : List Member) : NamedClass :=
  members.foldl (fun c m => (c.add m).2) c

theorem casing_add (c : NamedClass) (m : Member) :
  (c.add m).2.casing = c.casing
  := by
  rw [add]
  split
  · rfl
  · rfl

theorem casing_addAll (c : NamedClass) (members : List Member) :
  (c.addAll members).casing = c.casing
  := by
  induction members generalizing c with
  | nil => rfl
  | cons m ms ih =>
      rw [addAll, List.foldl_cons, ← addAll, ih]
      apply casing_add

theorem mem_place {casing : Casing} {new : Member} {members : List Member} {n : Member} :
  n ∈ place casing new members ↔ n = new ∨ n ∈ members
  := by
  obtain ⟨before, after, rfl, hplace, -⟩ := place_eq casing new members
  rw [hplace, List.mem_append, List.mem_cons, List.mem_append]
  exact or_left_comm

theorem mem_add {m n : Member} :
  n ∈ (c.add m).2.members ↔ n ∈ c.members ∨ n = m ∧ ¬ c.has m.text = true
  := by
  rw [add]
  split
  · next h => simp [h]
  · next h =>
    dsimp only
    rw [mem_place, and_iff_left h]
    apply or_comm

/-- A member that is offered matters only to texts that are the same. -/
theorem has_add_of_not_same {m : Member} {text : Bytes}
    (h : ¬ c.casing.same m.text text = true) :
  (c.add m).2.has text = true ↔ c.has text = true
  := by
  rw [has_iff, has_iff, casing_add]
  constructor
  · rintro ⟨n, hn, hsame⟩
    rcases mem_add.mp hn with hn | ⟨rfl, -⟩
    · use n, hn
    · exact absurd hsame h
  · rintro ⟨n, hn, hsame⟩
    use n, mem_add.mpr (.inl hn)

/-- Of members that are not the same all those become members that were not there before. -/
theorem mem_addAll {members : List Member} {n : Member}
    (h : members.Pairwise fun m n => ¬ c.casing.same m.text n.text = true) :
  n ∈ (c.addAll members).members ↔ n ∈ c.members ∨ n ∈ members ∧ ¬ c.has n.text = true
  := by
  induction members generalizing c with
  | nil => simp [addAll]
  | cons m ms ih =>
      obtain ⟨hm, hms⟩ := List.pairwise_cons.mp h
      have hrest : n ∈ ms → ((c.add m).2.has n.text = true ↔ c.has n.text = true) :=
        fun hn => has_add_of_not_same (hm n hn)
      rw [addAll, List.foldl_cons, ← addAll, ih (by rwa [casing_add]), mem_add, List.mem_cons]
      constructor
      · rintro ((hn | ⟨rfl, hnew⟩) | ⟨hn, hnew⟩)
        · left
          apply hn
        · exact .inr ⟨.inl rfl, hnew⟩
        · exact .inr ⟨.inr hn, fun hhas => hnew ((hrest hn).mpr hhas)⟩
      · rintro (hn | ⟨rfl | hn, hnew⟩)
        · exact .inl (.inl hn)
        · exact .inl (.inr ⟨rfl, hnew⟩)
        · exact .inr ⟨hn, fun hhas => hnew ((hrest hn).mp hhas)⟩

/-- Members that are not the same may be offered in any order. -/
theorem sameMembers_addAll (c : NamedClass) {members members' : List Member}
    (hperm : members.Perm members')
    (h : members.Pairwise fun m n => ¬ c.casing.same m.text n.text = true) :
  SameMembers (c.addAll members) (c.addAll members')
  where
  casing := by rw [casing_addAll, casing_addAll]
  mem_iff n := by
    have h' : members'.Pairwise fun m n => ¬ c.casing.same m.text n.text = true := by
      apply hperm.pairwise h
      intro m n hmn hnm
      apply hmn
      rw [Casing.same_iff] at hnm ⊢
      apply hnm.symm
    rw [mem_addAll h, mem_addAll h', hperm.mem_iff]

end NamedClass

/-! ### Searches -/

/-- A round of a class sees those of its members that lead the rest of the word. -/
theorem round_members (enough : Path → Bool) (c : NamedClass) (mayStop : Bool)
    (k : Continuation) (p : Path) :
  round enough (c.members.map (Search.memberStep c.casing)) mayStop k p =
    explore enough (fun m => Search.memberStep c.casing m (endRound mayStop k) p)
      (c.leading p.rest) .fail
  := by
  rw [round, explore_map, NamedClass.leading, explore_filter]
  · intro m hm
    apply if_neg hm
  · exact Bool.false_ne_true

namespace Search

/-- References to classes in order with the same members are the same step. -/
theorem leaf_eq_of_sameMembers {s s' : Search} (henough : s.enough = s'.enough)
    (hs : s.lexicon.Ordered) (hs' : s'.lexicon.Ordered) {id : ClassId} (reps : Reps)
    (h : Option.Rel NamedClass.SameMembers (s.lexicon.get? id) (s'.lexicon.get? id)) :
  s.leaf reps (.memberOf id) = s'.leaf reps (.memberOf id)
  := by
  rw [leaf, leaf, henough]
  apply repeated_congr
  intro mayStop k p
  cases hc : s.lexicon.get? id with
  | none =>
      rw [hc] at h
      rw [classSteps, classSteps, hc]
      cases hd : s'.lexicon.get? id with
      | none => rfl
      | some d =>
          rw [hd] at h
          cases h
  | some c =>
      rw [hc] at h
      cases hd : s'.lexicon.get? id with
      | none =>
          rw [hd] at h
          cases h
      | some d =>
          rw [hd] at h
          cases h with
          | some h =>
              rw [classSteps, classSteps, hc, hd]
              dsimp only
              rw [round_members, round_members, h.casing,
                h.leading_eq (hs id c hc) (hs' id d hd)]

end Search

namespace Pattern

/-- Lexicons whose classes have the same members, as far as a pattern refers to them, make the
same match. -/
theorem longestMatch?_eq_of_classes {lexicon lexicon' : Lexicon} (pattern : Pattern)
    (hl : lexicon.Ordered) (hl' : lexicon'.Ordered)
    (h : ∀ id reps, (Node.leaf (.memberOf id) reps).Occurs pattern.nodes →
      Option.Rel NamedClass.SameMembers (lexicon.get? id) (lexicon'.get? id)) (word : Bytes) :
  pattern.longestMatch? lexicon word = pattern.longestMatch? lexicon' word
  := by
  have henough : (Search.untilWordEnd lexicon).enough = (Search.untilWordEnd lexicon').enough :=
    rfl
  have hchain : (Search.untilWordEnd lexicon).chain pattern.nodes =
      (Search.untilWordEnd lexicon').chain pattern.nodes := by
    apply Search.chain_congr henough
    intro content reps ho
    cases content with
    | memberOf id => apply Search.leaf_eq_of_sameMembers henough hl hl' reps (h id reps ho)
    | _ => rfl
  rw [longestMatch?, longestMatch?, longestPath?, longestPath?, Search.longest?, Search.longest?,
    hchain]

end Pattern

/-! ### Rules -/

namespace Rule

variable {τ : Type}

/-- The rule after some members were offered to one of its classes, one after the other. -/
def extendAll (r : Rule τ) (name : Bytes) (members : List Member) : Rule τ :=
  members.foldl (fun r m => (r.extendClass name m).2) r

theorem extendAll_eq (r : Rule τ) (name : Bytes) (members : List Member) :
  r.extendAll name members =
    { r with lexicon := members.foldl (fun l m => (l.add name m).2) r.lexicon }
  := by
  induction members generalizing r with
  | nil => rfl
  | cons m ms ih =>
      rw [extendAll, List.foldl_cons, ← extendAll, ih]
      rfl

end Rule

namespace Lexicon

/-- Offering members to a class is referring to it with these members. -/
theorem foldl_add_eq_declare (l : Lexicon) (name : Bytes) {members : List Member}
    (h : members ≠ []) :
  members.foldl (fun l m => (l.add name m).2) l = l.declare ⟨name, members⟩
  := by
  obtain ⟨m, ms, rfl⟩ := List.exists_cons_of_ne_nil h
  have hadd : (l.add name m).2 = ((l.intern name).2.add name m).2 := by
    rw [add, add, intern_of_idOf? (l.idOf?_intern name)]
  rw [List.foldl_cons, hadd, declare, List.foldl_cons]

/-- After offers in different orders the classes have the same members. -/
theorem rel_get?_of_perm (l : Lexicon) (name : Bytes) {members members' : List Member}
    (hperm : members.Perm members')
    (h : members.Pairwise fun m n => ¬ (l.classOf name).casing.same m.text n.text = true)
    (id : ClassId) :
  Option.Rel NamedClass.SameMembers
    ((members.foldl (fun l m => (l.add name m).2) l).get? id)
    ((members'.foldl (fun l m => (l.add name m).2) l).get? id)
  := by
  have hrefl : ∀ a : Option NamedClass, Option.Rel NamedClass.SameMembers a a := by
    intro a
    cases a with
    | none => exact Option.Rel.none
    | some c => exact Option.Rel.some (NamedClass.SameMembers.refl c)
  by_cases hnil : members = []
  · obtain rfl := hnil
    rw [hperm.nil_eq]
    apply hrefl
  · have hnil' : members' ≠ [] := fun he => hnil (he ▸ hperm).eq_nil
    rw [foldl_add_eq_declare l name hnil, foldl_add_eq_declare l name hnil', get?_declare,
      get?_declare, get?_intern]
    by_cases hid : id = l.idOf name
    · rw [if_pos hid, Option.map_some, Option.map_some]
      dsimp only
      rw [if_pos hid, if_pos hid]
      apply Option.Rel.some
      apply NamedClass.sameMembers_addAll _ hperm h
    · simp only [if_neg hid]
      apply hrefl

end Lexicon

/-- The order of members does not show.  Lexicons that one can get hold of, in which the classes
that a pattern refers to compare in the same way and have the same members, in whatever order,
make the same match with every word.  In particular members that are not the same may be
offered to a class of a rule in any order: the rule respells all words in the same way. -/
theorem longestMatch?_and_respell?_of_sameMembers :
  (∀ {lexicon lexicon' : Lexicon} (pattern : Pattern),
      lexicon.Reachable → lexicon'.Reachable →
      (∀ id reps, (Node.leaf (.memberOf id) reps).Occurs pattern.nodes →
        Option.Rel NamedClass.SameMembers (lexicon.get? id) (lexicon'.get? id)) →
      ∀ word, pattern.longestMatch? lexicon word = pattern.longestMatch? lexicon' word) ∧
    ∀ {τ : Type} (r : Rule τ) (name : Bytes) {members members' : List Member},
      r.lexicon.Reachable → members.Perm members' →
      (members.Pairwise fun m n =>
        ¬ (r.lexicon.classOf name).casing.same m.text n.text = true) →
      ∀ word, (r.extendAll name members).respell? word =
        (r.extendAll name members').respell? word
  := by
  constructor
  · intro lexicon lexicon' pattern hl hl' h word
    apply Pattern.longestMatch?_eq_of_classes pattern hl.ordered hl'.ordered h
  · intro τ r name members members' hr hperm h word
    have hlongest := Pattern.longestMatch?_eq_of_classes (r.pattern.getD .empty)
      (hr.foldl_add name members).ordered (hr.foldl_add name members').ordered
      (fun id _ _ => r.lexicon.rel_get?_of_perm name hperm h id) word
    rw [Rule.extendAll_eq, Rule.extendAll_eq, Rule.respell?, Rule.respell?, Rule.wholeMatch?,
      Rule.wholeMatch?, Pattern.wholeMatch?, Pattern.wholeMatch?, hlongest]

/-- Members that were declared, and members that were offered, in two orders. -/
theorem longestMatch?_and_respell?_of_two_orders :
  let r := Reading.ofSource (Utf8.encode "(<v:a,ab|x,b>c?)*") .empty
  let r' := Reading.ofSource (Utf8.encode "(<v:b,a,ab|x>c?)*") .empty
  let rule := Rule.ofSource (Utf8.encode "<v>+") "%0" ()
  let members : List Member := [⟨[97], [97]⟩, ⟨[97, 98], [120]⟩, ⟨[98], [98]⟩]
  r.pattern = r'.pattern ∧
    (r.lexicon.classOf [118]).members = [⟨[97, 98], [120]⟩, ⟨[97], [97]⟩, ⟨[98], [98]⟩] ∧
    (r'.lexicon.classOf [118]).members = [⟨[98], [98]⟩, ⟨[97, 98], [120]⟩, ⟨[97], [97]⟩] ∧
    (∀ word, r.pattern.longestMatch? r.lexicon word = r.pattern.longestMatch? r'.lexicon word) ∧
    ∀ word, (rule.extendAll [118] members).respell? word =
      (rule.extendAll [118] members.reverse).respell? word
  := by
  intro r r' rule members
  have hmembers : (r.lexicon.classOf [118]).members.Perm (r'.lexicon.classOf [118]).members := by
    decide +kernel
  have hclasses : ∀ id, Option.Rel NamedClass.SameMembers (r.lexicon.get? id)
      (r'.lexicon.get? id) := by
    rintro ⟨i⟩
    cases i with
    | zero =>
        have hc : r.lexicon.get? ⟨0⟩ = some (r.lexicon.classOf [118]) := by decide +kernel
        have hc' : r'.lexicon.get? ⟨0⟩ = some (r'.lexicon.classOf [118]) := by decide +kernel
        rw [hc, hc']
        exact Option.Rel.some ⟨by decide +kernel, fun m => hmembers.mem_iff⟩
    | succ i =>
        have hsize : r.lexicon.size = 1 := by decide +kernel
        have hsize' : r'.lexicon.size = 1 := by decide +kernel
        rw [Lexicon.size] at hsize hsize'
        rw [Lexicon.get?, Lexicon.get?, List.getElem?_eq_none (by rw [hsize]; simp),
          List.getElem?_eq_none (by rw [hsize']; simp)]
        exact Option.Rel.none
  have hrule : rule.lexicon.Reachable := .read .empty _
  refine ⟨by decide +kernel, by decide +kernel, by decide +kernel, ?_, ?_⟩
  · apply longestMatch?_and_respell?_of_sameMembers.1 r.pattern (.read .empty _)
      (.read .empty _)
    intro id _ _
    apply hclasses
  · apply longestMatch?_and_respell?_of_sameMembers.2 rule [118] hrule
      (List.reverse_perm members).symm
    decide +kernel

end Respell
