import Mathlib.Tactic.Common
import Respell.Match
import Respell.Proofs.Pattern.Node

/-!
# Ways along a pattern

What a pattern matches, said without a search.  A way leads from one place in a word to
a later one and renders a text on it.  Each node has its ways; a way along a chain is one
along each of its nodes, and a way through a group or a class is made of repetitions, each
along one branch or one member.  `Ways.every` has all of them.
-/

namespace Respell

/-- A place in a word: the bytes after it, and what is captured there. -/
structure Place where
  rest : Bytes
  captures : Captures Bytes

namespace Place

/-- In front of a word. -/
def start (word : Bytes) : Place := ⟨word, .none⟩

/-- The same place with a text captured under a number. -/
def capture (a : Place) (number : Nat) (text : Bytes) : Place :=
  ⟨a.rest, a.captures.put number text⟩

end Place

/-- A relation that holds of `a`, `t` and `b` when a way from the place `a` to the place
`b` renders the text `t`. -/
abbrev Way := Place → Bytes → Place → Prop

/-- The bounds allow `n` repetitions. -/
def Reps.Admits (r : Reps) (n : Nat) : Prop :=
  r.least ≤ n ∧ ∀ m ∈ r.most, n ≤ m

instance (r : Reps) (n : Nat) : Decidable (r.Admits n) :=
  inferInstanceAs (Decidable (_ ∧ _))

theorem Reps.exists_most_le_one {r : Reps} (h : ¬ ∀ m ∈ r.most, 1 < m) :
  ∃ m ∈ r.most, m ≤ 1
  := by
  obtain ⟨m, hm⟩ := Classical.not_forall.mp h
  obtain ⟨hm, hlt⟩ := Classical.not_imp.mp hm
  use m, hm, Nat.le_of_not_lt hlt

/-- The match that a way through the front of a word makes when it leads to `b` and renders
`t`.  Number 0 captures the whole text. -/
def Match.ofWay (word t : Bytes) (b : Place) : Match :=
  ⟨word.length - b.rest.length, Utf8.decode t,
    Captures.put (b.captures.map (·.map Utf8.decode)) 0 (Utf8.decode t)⟩

namespace Way

/-- A byte that satisfies a condition is taken and rendered as it is. -/
def copyByte (accepts : UInt8 → Bool) : Way := fun a t b =>
  ∃ c, accepts c = true ∧ a.rest = c :: b.rest ∧ b.captures = a.captures ∧ t = [c]

/-- A copy of a text is taken, and its replacement rendered. -/
def replaceText (casing : Casing) (text replacement : Bytes) : Way := fun a t b =>
  ∃ s, casing.same text s = true ∧ a.rest = s ++ b.rest ∧ b.captures = a.captures ∧
    t = replacement

/-- Repetitions one after the other, from the one with number `i` up to and without the
one with number `j`, where the repetition with number `n` is `W n`. -/
inductive Times (W : Nat → Way) : Nat → Nat → Place → Bytes → Place → Prop
  | nil {i : Nat} {a : Place} : Times W i i a [] a
  | cons {i j : Nat} {a b c : Place} {s t : Bytes} (first : W i a s b)
      (more : Times W (i + 1) j b t c) : Times W i j a (s ++ t) c

/-- As many repetitions as the bounds allow. -/
def repeated (W : Way) (reps : Reps) : Way := fun a t b =>
  ∃ k, reps.Admits k ∧ Times (fun _ => W) 0 k a t b

/-- The repetition with number `n`, when another one may follow it. -/
def followed (W : Way) (follows : Nat → Place → Place → Prop) (n : Nat) : Way :=
  fun a t b => W a t b ∧ follows n a b

/-- Repetitions of which each but the last one must allow another one to follow.  There
are as many as the bounds allow, or fewer if the last one takes nothing and allows all
that are missing to follow. -/
inductive Rounds (W : Way) (follows : Nat → Place → Place → Prop) (reps : Reps) :
    Place → Bytes → Place → Prop
  | none {a : Place} (least : reps.least = 0) : Rounds W follows reps a [] a
  | some {k : Nat} {a b c : Place} {s t : Bytes}
      (before : Times (followed W follows) 0 k a s b) (last : W b t c)
      (bounds : reps.Admits (k + 1)) : Rounds W follows reps a (s ++ t) c
  | idle {k : Nat} {a b c : Place} {s t : Bytes}
      (before : Times (followed W follows) 0 k a s b) (last : followed W follows k b t c)
      (nothing : c.rest = b.rest) (most : ∀ m ∈ reps.most, k + 1 ≤ m) :
      Rounds W follows reps a (s ++ t) c

/-- Nothing is taken or rendered. -/
def stay : Way := fun a t b => t = [] ∧ b = a

/-- A way followed by another one. -/
def comp (V W : Way) : Way := fun a u c =>
  ∃ s b t, V a s b ∧ W b t c ∧ u = s ++ t

/-- A way whose text is replaced if a replacement is given, and then captured. -/
def enclose (W : Way) (number : Nat) (replacement : Option Bytes) : Way := fun a t c =>
  ∃ s b, W a s b ∧ t = replacement.getD s ∧ c = b.capture number t

end Way

/-- What the ways of a pattern depend on besides the pattern: the classes, and from where
to where a repetition of a node may lead, given its number, for another one to follow. -/
structure Ways where
  lexicon : Lexicon
  follows : Node → Nat → Place → Place → Prop

namespace Ways

/-- One repetition of a class: a member in front of the rest of the word. -/
def member (w : Ways) (id : ClassId) : Way := fun a t b =>
  ∃ c, w.lexicon.get? id = some c ∧
    ∃ m ∈ c.members, Way.replaceText c.casing m.text m.replacement a t b

/-- The ways of a leaf. -/
def leaf (w : Ways) (reps : Reps) : Leaf → Way
  | .byte b => Way.repeated (Way.copyByte fun c => Casing.folded.key b = Casing.folded.key c) reps
  | .set members => Way.repeated (Way.copyByte members.contains) reps
  | .literal text replacement =>
    if text = [] then fun a t b => t = replacement ∧ b = a
    else Way.repeated (Way.replaceText .folded text replacement) reps
  | .memberOf id => Way.Rounds (w.member id) (w.follows (.leaf (.memberOf id) reps)) reps
  | .wordEnd => fun a t b => (a.rest = [] ∨ reps.least = 0) ∧ t = [] ∧ b = a
  | .remainder => fun a t b =>
    t = a.rest ∧ b = ⟨[], a.captures⟩ ∨ reps.least = 0 ∧ t = [] ∧ b = a

mutual

/-- The ways of a node. -/
def node (w : Ways) : Node → Way
  | .leaf content reps => w.leaf reps content
  | .group number branches reps =>
    Way.Rounds (w.branchOf number branches) (w.follows (.group number branches reps)) reps

/-- The ways of a chain: those of its nodes one after the other. -/
def chain (w : Ways) : List Node → Way
  | [] => Way.stay
  | n :: ns => Way.comp (w.node n) (w.chain ns)

/-- The ways of a branch of the group with the given number. -/
def branch (w : Ways) (number : Nat) : Branch Node → Way
  | ⟨nodes, replacement⟩ => Way.enclose (w.chain nodes) number replacement

/-- One repetition of the group with the given number: a way of one of its branches. -/
def branchOf (w : Ways) (number : Nat) : List (Branch Node) → Way
  | [] => fun _ _ _ => False
  | b :: bs => fun a t c => w.branch number b a t c ∨ w.branchOf number bs a t c

end

/-- One repetition of a group or of a class.  Other nodes have none. -/
def round (w : Ways) : Node → Way
  | .leaf (.memberOf id) _ => w.member id
  | .leaf _ _ => fun _ _ _ => False
  | .group number branches _ => w.branchOf number branches

/-- All ways: any repetition may follow any other one. -/
def every (lexicon : Lexicon) : Ways := ⟨lexicon, fun _ _ _ _ => True⟩

theorem branch_eq (w : Ways) (number : Nat) (b : Branch Node) :
  w.branch number b = (w.chain b.nodes).enclose number b.replacement
  := by
  cases b
  rw [branch]

theorem branchOf_iff (w : Ways) (number : Nat) (branches : List (Branch Node))
    (a : Place) (t : Bytes) (c : Place) :
  w.branchOf number branches a t c ↔ ∃ b ∈ branches, w.branch number b a t c
  := by
  induction branches with
  | nil => simp [branchOf]
  | cons b bs ih => simp [branchOf, ih]

end Ways

/-! ### Repetitions one after the other -/

namespace Way

theorem Times.snoc {W : Nat → Way} {i j : Nat} {a b c : Place} {s t : Bytes}
    (before : Times W i j a s b) (last : W j b t c) :
  Times W i (j + 1) a (s ++ t) c
  := by
  induction before with
  | nil =>
      rw [List.nil_append, ← List.append_nil t]
      apply Times.cons last Times.nil
  | cons first _ ih =>
      rw [List.append_assoc]
      apply Times.cons first (ih last)

theorem Times.le {W : Nat → Way} {i j : Nat} {a b : Place} {t : Bytes}
    (times : Times W i j a t b) :
  i ≤ j
  := by
  induction times with
  | nil => apply Nat.le_refl
  | cons _ _ ih => apply Nat.le_of_succ_le ih

/-- No repetitions take or render nothing. -/
theorem Times.eq_stay {W : Nat → Way} {i : Nat} {a b : Place} {t : Bytes}
    (times : Times W i i a t b) :
  stay a t b
  := by
  cases times with
  | nil => exact ⟨rfl, rfl⟩
  | cons _ more => cases Nat.not_succ_le_self _ more.le

/-- Repetitions stay repetitions of another kind when each of them does at the places in
`S`, which they do not leave. -/
theorem Times.impOn {V W : Nat → Way} {S : Place → Prop} {i j : Nat} {a b : Place}
    {t : Bytes} (hS : ∀ n a t b, S a → V n a t b → S b)
    (h : ∀ n a t b, n < j → S a → V n a t b → W n a t b) (ha : S a)
    (times : Times V i j a t b) :
  Times W i j a t b ∧ S b
  := by
  induction times with
  | nil => exact ⟨Times.nil, ha⟩
  | cons first more ih =>
      obtain ⟨more', hb⟩ := ih h (hS _ _ _ _ ha first)
      exact ⟨Times.cons (h _ _ _ _ more.le ha first) more', hb⟩

theorem Times.imp {V W : Nat → Way} {i j : Nat} {a b : Place} {t : Bytes}
    (h : ∀ n a t b, V n a t b → W n a t b) (times : Times V i j a t b) :
  Times W i j a t b
  := (times.impOn (S := fun _ => True) (fun _ _ _ _ _ _ => trivial)
      (fun n a t b _ _ => h n a t b) trivial).1

/-- Rounds stay rounds when, at the places in `S`, which they do not leave, there are more
ways of one repetition and more of those that leave room for another one may be followed
by it. -/
theorem Rounds.impOn {V W : Way} {f g : Nat → Place → Place → Prop} {reps : Reps}
    {S : Place → Prop} (hS : ∀ a t b, S a → V a t b → S b)
    (h : ∀ a t b, S a → V a t b → W a t b)
    (hf : ∀ n a t b, (∀ m ∈ reps.most, n + 2 ≤ m) → S a → V a t b → f n a b → g n a b)
    {a b : Place} {t : Bytes} (ha : S a) (rounds : Rounds V f reps a t b) :
  Rounds W g reps a t b
  := by
  have hbefore : ∀ {k b t}, (∀ m ∈ reps.most, k + 1 ≤ m) →
      Times (followed V f) 0 k a t b → Times (followed W g) 0 k a t b ∧ S b := by
    intro k b t hk times
    apply times.impOn (fun n a t b ha hv => hS a t b ha hv.1) _ ha
    rintro n a t b hn ha ⟨hv, hfol⟩
    use h a t b ha hv
    apply hf n a t b _ ha hv hfol
    intro m hm
    have := hk m hm
    omega
  cases rounds with
  | none least => apply Rounds.none least
  | some before last bounds =>
      obtain ⟨before, hb⟩ := hbefore bounds.2 before
      apply Rounds.some before (h _ _ _ hb last) bounds
  | @idle k _ _ _ _ _ before last nothing most =>
      obtain ⟨before, hb⟩ := hbefore most before
      have hlast := h _ _ _ hb last.1
      by_cases hleast : reps.least ≤ k + 1
      · apply Rounds.some before hlast ⟨hleast, most⟩
      · apply Rounds.idle before ⟨hlast, hf k _ _ _ _ hb last.1 last.2⟩ nothing most
        -- fewer repetitions than are needed leave room for another one
        intro m hm
        have := reps.least_le m hm
        omega

/-- Rounds of which there is at most one are like repetitions without any conditions. -/
theorem rounds_iff_repeated {W : Way} {reps : Reps} (h : ∃ m ∈ reps.most, m ≤ 1)
    (a : Place) (t : Bytes) (b : Place) :
  Rounds W (fun _ _ _ => True) reps a t b ↔ W.repeated reps a t b
  := by
  obtain ⟨m, hm, hle⟩ := h
  have hleast := reps.least_le m hm
  have htimes : ∀ {k a b t}, Times (followed W fun _ _ _ => True) 0 k a t b →
      Times (fun _ => W) 0 k a t b := fun times => times.imp fun _ _ _ _ h => h.1
  constructor
  · intro rounds
    cases rounds with
    | none least =>
        use 0, ⟨Nat.le_of_eq least, fun _ _ => Nat.zero_le _⟩
        apply Times.nil
    | some before last bounds => exact ⟨_, bounds, (htimes before).snoc last⟩
    | @idle k _ _ _ _ _ before last nothing most =>
        refine ⟨k + 1, ⟨?_, most⟩, (htimes before).snoc last.1⟩
        omega
  · rintro ⟨k, ⟨hk, hmost⟩, times⟩
    have hone := Nat.le_trans (hmost m hm) hle
    obtain rfl | rfl := Nat.le_one_iff_eq_zero_or_eq_one.mp hone
    · obtain ⟨rfl, rfl⟩ := times.eq_stay
      apply Rounds.none (Nat.le_zero.mp hk)
    · cases times with
      | cons first more =>
          obtain ⟨rfl, rfl⟩ := more.eq_stay
          rw [List.append_nil]
          apply Rounds.some Times.nil first ⟨hk, hmost⟩

/-! ### Relations that hold along ways -/

/-- The relation `Q` holds along the way. -/
def Within (W Q : Way) : Prop := ∀ a t b, W a t b → Q a t b

/-- The relation holds where nothing is taken or rendered, and along a way that is followed by
another one when it holds along both. -/
structure Composes (Q : Way) : Prop where
  refl : ∀ a, Q a [] a
  trans : ∀ {a b c s t}, Q a s b → Q b t c → Q a (s ++ t) c

namespace Composes

variable {Q V W : Way} (hQ : Q.Composes)
include hQ

theorem comp (hV : V.Within Q) (hW : W.Within Q) :
  (Way.comp V W).Within Q
  := by
  rintro a u c ⟨s, b, t, hs, ht, rfl⟩
  apply hQ.trans (hV a s b hs) (hW b t c ht)

theorem times {W : Nat → Way} (hW : ∀ n, (W n).Within Q) (i j : Nat) :
  Within (Times W i j) Q
  := by
  intro a t b times
  induction times with
  | nil => apply hQ.refl
  | cons first _ ih => apply hQ.trans (hW _ _ _ _ first) ih

theorem repeated (hW : W.Within Q) (reps : Reps) :
  (W.repeated reps).Within Q
  := by
  rintro a t b ⟨k, -, h⟩
  apply hQ.times (fun _ => hW) 0 k a t b h

theorem rounds (hW : W.Within Q) (follows : Nat → Place → Place → Prop) (reps : Reps) :
  Within (Rounds W follows reps) Q
  := by
  have hbefore : ∀ k, Within (Times (followed W follows) 0 k) Q :=
    fun k => hQ.times (fun n a t b h => hW a t b h.1) 0 k
  intro a t c h
  cases h with
  | none => apply hQ.refl
  | some before last => apply hQ.trans (hbefore _ _ _ _ before) (hW _ _ _ last)
  | idle before last => apply hQ.trans (hbefore _ _ _ _ before) (hW _ _ _ last.1)

end Composes

/-- A way leads to the same place or to a later one. -/
def Onward (W : Way) : Prop := W.Within fun a _ b => b.rest <:+ a.rest

theorem composes_suffix :
  Composes fun a _ b => b.rest <:+ a.rest
  where
  refl _ := List.suffix_refl _
  trans h h' := h'.trans h

theorem onward_copyByte (accepts : UInt8 → Bool) :
  (copyByte accepts).Onward
  := by
  rintro a t b ⟨c, -, h, -⟩
  rw [h]
  apply List.suffix_cons

theorem onward_replaceText (casing : Casing) (text replacement : Bytes) :
  (replaceText casing text replacement).Onward
  := by
  rintro a t b ⟨s, -, h, -⟩
  rw [h]
  apply List.suffix_append

theorem Onward.enclose {W : Way} (hW : W.Onward) (number : Nat)
    (replacement : Option Bytes) :
  (W.enclose number replacement).Onward
  := by
  rintro a t c ⟨s, b, h, -, rfl⟩
  apply hW a s b h

/-! ### Ways that take some of the word -/

theorem length_lt_of_replaceText {text replacement : Bytes} (htext : text ≠ []) (a : Place)
    (t : Bytes) (b : Place) (h : replaceText .folded text replacement a t b) :
  b.rest.length < a.rest.length
  := by
  obtain ⟨s, hs, hrest, -⟩ := h
  have hlen := Casing.length_eq_of_same hs
  have := List.length_pos_iff.mpr htext
  rw [hrest, List.length_append]
  omega

theorem length_lt_of_copyByte (accepts : UInt8 → Bool) (a : Place) (t : Bytes) (b : Place)
    (h : copyByte accepts a t b) :
  b.rest.length < a.rest.length
  := by
  obtain ⟨c, -, hrest, -⟩ := h
  rw [hrest]
  apply Nat.lt_succ_self

/-- Each repetition of a way that takes some of the word takes at least one byte. -/
theorem length_le_of_times {W : Way} (hless : ∀ a t b, W a t b → b.rest.length < a.rest.length)
    {i j : Nat} {a b : Place} {t : Bytes} (times : Times (fun _ => W) i j a t b) :
  j - i + b.rest.length ≤ a.rest.length
  := by
  induction times with
  | nil => omega
  | cons first more ih =>
      have := hless _ _ _ first
      have := more.le
      omega

end Way

namespace Ways

open Way

variable (w : Ways)

theorem onward_member (id : ClassId) :
  (w.member id).Onward
  := by
  rintro a t b ⟨c, -, m, -, h⟩
  apply onward_replaceText _ _ _ a t b h

/-- A relation holds along the ways of a leaf when it holds along the single steps that the leaf
may make. -/
theorem within_leaf {Q : Way} (hQ : Q.Composes) (reps : Reps) {content : Leaf}
    (hbyte : ∀ accepts, (copyByte accepts).Within Q)
    (hremainder : ∀ a : Place, Q a a.rest ⟨[], a.captures⟩)
    (hliteral : ∀ text replacement, content = .literal text replacement →
      (replaceText .folded text replacement).Within Q)
    (hmember : ∀ id, content = .memberOf id → (w.member id).Within Q) :
  (w.leaf reps content).Within Q
  := by
  cases content with
  | byte b => apply hQ.repeated (hbyte _)
  | set members => apply hQ.repeated (hbyte _)
  | literal text replacement =>
      rw [leaf]
      split
      · next hempty =>
        rintro a t b ⟨rfl, rfl⟩
        exact hliteral text t rfl b t b ⟨[], by rw [hempty]; rfl, rfl, rfl, rfl⟩
      · apply hQ.repeated (hliteral text replacement rfl)
  | memberOf id => apply hQ.rounds (hmember id rfl)
  | wordEnd =>
      rintro a t b ⟨-, rfl, rfl⟩
      apply hQ.refl
  | remainder =>
      rintro a t b (⟨rfl, rfl⟩ | ⟨-, rfl, rfl⟩)
      · apply hremainder
      · apply hQ.refl

theorem within_chain_of_nodes {Q : Way} (hQ : Q.Composes) {nodes : List Node}
    (h : ∀ n ∈ nodes, (w.node n).Within Q) :
  (w.chain nodes).Within Q
  := by
  induction nodes with
  | nil =>
      rintro a t b ⟨rfl, rfl⟩
      apply hQ.refl
  | cons n ns ih =>
      apply hQ.comp (h n List.mem_cons_self)
      apply ih (fun m hm => h m (List.mem_cons_of_mem n hm))

theorem within_branchOf {Q : Way} {number : Nat} {branches : List (Branch Node)}
    (h : ∀ b ∈ branches, ((w.chain b.nodes).enclose number b.replacement).Within Q) :
  (w.branchOf number branches).Within Q
  := by
  intro a t c hw
  obtain ⟨b, hb, hw⟩ := (w.branchOf_iff number branches a t c).mp hw
  rw [branch_eq] at hw
  apply h b hb a t c hw

theorem within_node {Q : Way} (hQ : Q.Composes) (n : Node)
    (hleaf : ∀ content reps, (Node.leaf content reps).Occurs [n] →
      (w.leaf reps content).Within Q)
    (hgroup : ∀ number branches reps, (Node.group number branches reps).Occurs [n] →
      ∀ b ∈ branches, ∀ W : Way, W.Within Q → (W.enclose number b.replacement).Within Q) :
  (w.node n).Within Q
  := by
  induction n using Node.ind with
  | leaf content reps => apply hleaf content reps (Node.Occurs.here List.mem_cons_self)
  | group number branches reps ih =>
      apply hQ.rounds
      refine w.within_branchOf ?_
      intro b hb
      apply hgroup number branches reps (Node.Occurs.here List.mem_cons_self) b hb
      refine w.within_chain_of_nodes hQ ?_
      intro m hm
      refine ih b hb m hm ?_ ?_
      · intro content reps ho
        apply hleaf content reps (ho.ofBranch hb hm)
      · intro number branches reps ho
        apply hgroup number branches reps (ho.ofBranch hb hm)

/-- A relation holds along the ways of a chain when it holds along those of its leaves and is
kept by its branches, at every depth. -/
theorem within_chain {Q : Way} (hQ : Q.Composes) {nodes : List Node}
    (hleaf : ∀ content reps, (Node.leaf content reps).Occurs nodes →
      (w.leaf reps content).Within Q)
    (hgroup : ∀ number branches reps, (Node.group number branches reps).Occurs nodes →
      ∀ b ∈ branches, ∀ W : Way, W.Within Q → (W.enclose number b.replacement).Within Q) :
  (w.chain nodes).Within Q
  := by
  apply w.within_chain_of_nodes hQ
  intro n hn
  apply w.within_node hQ n
  · intro content reps ho
    apply hleaf content reps (ho.ofMem hn)
  · intro number branches reps ho
    apply hgroup number branches reps (ho.ofMem hn)

theorem onward_leaf (reps : Reps) (content : Leaf) :
  (w.leaf reps content).Onward
  := by
  apply w.within_leaf composes_suffix reps onward_copyByte
  · exact fun a => List.nil_suffix
  · exact fun text replacement _ => onward_replaceText .folded text replacement
  · exact fun id _ => w.onward_member id

theorem onward_node (n : Node) :
  (w.node n).Onward
  := by
  apply w.within_node composes_suffix n
  · exact fun content reps _ => w.onward_leaf reps content
  · exact fun number _ _ _ b _ W hW => Onward.enclose hW number b.replacement

theorem onward_chain (nodes : List Node) :
  (w.chain nodes).Onward
  := w.within_chain_of_nodes composes_suffix (fun n _ => w.onward_node n)

theorem onward_branchOf {number : Nat} {branches : List (Branch Node)}
    (h : ∀ b ∈ branches, (w.chain b.nodes).Onward) :
  (w.branchOf number branches).Onward
  := w.within_branchOf (fun b hb => Onward.enclose (h b hb) number b.replacement)

theorem onward_round (n : Node) :
  (w.round n).Onward
  := by
  cases n with
  | leaf content reps =>
      cases content with
      | memberOf id => apply onward_member
      | _ => exact fun _ _ _ h => h.elim
  | group number branches reps => apply w.onward_branchOf (fun b _ => w.onward_chain b.nodes)

/-! ### Ways with other conditions on what may follow -/

section Imp

variable {w} {w' : Ways} {S : Place → Prop}
  (hlexicon : w.lexicon = w'.lexicon) (hS : ∀ a b : Place, S a → b.rest <:+ a.rest → S b)
include hlexicon hS

theorem leaf_impOn {reps : Reps} {content : Leaf}
    (hf : ∀ m : Node, m.Occurs [.leaf content reps] → ∀ i a t b,
      (∀ k ∈ m.reps.most, i + 2 ≤ k) → S a → w.round m a t b →
        w.follows m i a b → w'.follows m i a b)
    {a b : Place} {t : Bytes} (ha : S a) (h : w.leaf reps content a t b) :
  w'.leaf reps content a t b
  := by
  cases content with
  | memberOf id =>
      apply Rounds.impOn (S := S) _ _ _ ha h
      · intro a t b ha hm
        apply hS a b ha (w.onward_member id a t b hm)
      · rintro a t b - ⟨c, hc, hm⟩
        exact ⟨c, hlexicon ▸ hc, hm⟩
      · apply hf (.leaf (.memberOf id) reps) (Node.Occurs.here List.mem_cons_self)
  | _ => exact h

omit hlexicon in
theorem chain_impOn_of_nodes {nodes : List Node}
    (h : ∀ n ∈ nodes, ∀ a t b, S a → w.node n a t b → w'.node n a t b)
    {a b : Place} {t : Bytes} (ha : S a) (hw : w.chain nodes a t b) :
  w'.chain nodes a t b
  := by
  induction nodes generalizing a b t with
  | nil => exact hw
  | cons n ns ih =>
      obtain ⟨s, c, t, hn, hns, rfl⟩ := hw
      use s, c, t, h n List.mem_cons_self a s c ha hn
      have hc : S c := hS a c ha (w.onward_node n a s c hn)
      use ih (fun m hm => h m (List.mem_cons_of_mem n hm)) hc hns

omit hlexicon in
theorem branchOf_impOn_of_nodes {number : Nat} {branches : List (Branch Node)}
    (h : ∀ b ∈ branches, ∀ n ∈ b.nodes, ∀ a t b, S a → w.node n a t b → w'.node n a t b)
    {a c : Place} {t : Bytes} (ha : S a) (hw : w.branchOf number branches a t c) :
  w'.branchOf number branches a t c
  := by
  obtain ⟨b, hb, hw⟩ := (w.branchOf_iff number branches a t c).mp hw
  rw [branch_eq] at hw
  obtain ⟨s, d, hw, ht, hc⟩ := hw
  apply (w'.branchOf_iff number branches a t c).mpr
  use b, hb
  rw [branch_eq]
  exact ⟨s, d, chain_impOn_of_nodes hS (h b hb) ha hw, ht, hc⟩

/-- A way of a node stays a way when, at the places in `S`, which ways do not leave, more
repetitions of the nodes in it that leave room for another one may be followed by it. -/
theorem node_impOn (n : Node)
    (hf : ∀ m : Node, m.Occurs [n] → ∀ i a t b,
      (∀ k ∈ m.reps.most, i + 2 ≤ k) → S a → w.round m a t b →
        w.follows m i a b → w'.follows m i a b) :
  ∀ a t b, S a → w.node n a t b → w'.node n a t b
  := by
  induction n using Node.ind with
  | leaf content reps =>
      intro a t b ha h
      apply leaf_impOn hlexicon hS hf ha h
  | group number branches reps ih =>
      intro a t b ha h
      apply Rounds.impOn (S := S) _ _ _ ha h
      · intro a t b ha hb
        apply hS a b ha (w.onward_round (.group number branches reps) a t b hb)
      · intro a t c ha hb
        apply branchOf_impOn_of_nodes hS _ ha hb
        intro b hb m hm
        apply ih b hb m hm
        intro m' hm'
        apply hf m' (hm'.ofBranch hb hm)
      · apply hf (.group number branches reps) (Node.Occurs.here List.mem_cons_self)

/-- A way of a chain stays a way when, at the places in `S`, which ways do not leave, more
repetitions of the nodes in it that leave room for another one may be followed by it. -/
theorem chain_impOn {nodes : List Node}
    (hf : ∀ m : Node, m.Occurs nodes → ∀ i a t b,
      (∀ k ∈ m.reps.most, i + 2 ≤ k) → S a → w.round m a t b →
        w.follows m i a b → w'.follows m i a b)
    {a b : Place} {t : Bytes} (ha : S a) (h : w.chain nodes a t b) :
  w'.chain nodes a t b
  := by
  apply chain_impOn_of_nodes hS _ ha h
  intro n hn
  apply node_impOn hlexicon hS n
  intro m hm
  apply hf m (Node.Occurs.ofMem hn hm)

end Imp

end Ways

end Respell
