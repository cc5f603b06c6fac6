import Respell.Proofs.Search.Soundness
import Respell.Proofs.Text.Utf8
import Respell.Reading

/-!
# Patterns that replace nothing

Where each literal and each member is replaced by itself and no branch has a replacement, a
pattern gives out what it takes, up to case, and what it captures are pieces of that.  Each way
has this property when the ways it is made of have it.  If in addition case counts wherever
texts are compared, then what is given out is exactly what was taken.
-/

namespace Respell

namespace Casing

variable {casing : Casing}

theorem same_refl (s : Bytes) :
  casing.same s s = true
  := same_iff.mpr rfl

theorem same_append {s s' t t' : Bytes} (h : casing.same s t = true)
    (h' : casing.same s' t' = true) :
  casing.same (s ++ s') (t ++ t') = true
  := by
  rw [same_iff, List.map_append, List.map_append, same_iff.mp h, same_iff.mp h']

theorem eq_of_same_exact {s t : Bytes} (h : exact.same s t = true) :
  s = t
  := by
  rw [same_iff] at h
  simpa [key] using h

/-- Texts that are the same under a stricter comparison are the same. -/
theorem same_of_stricter {casing' : Casing} (hstricter : casing = .exact → casing' = .exact)
    {s t : Bytes} (h : casing'.same s t = true) :
  casing.same s t = true
  := by
  cases casing' with
  | exact =>
      rw [eq_of_same_exact h]
      apply same_refl
  | folded =>
      cases casing with
      | exact => cases hstricter rfl
      | folded => exact h

end Casing

/-! ### What is given back -/

/-- From `a` to `b` the bytes `taken` were taken and the text `t` rendered.  The text is what
was taken, and what was captured on the way are pieces of that, both up to `casing`. -/
structure Place.GivesBack (casing : Casing) (a : Place) (taken t : Bytes) (b : Place) : Prop where
  rest : a.rest = taken ++ b.rest
  same : casing.same t taken = true
  pieces : ∀ number, ∀ text ∈ b.captures.get? number,
    text ∈ a.captures.get? number ∨ ∃ piece, piece <:+: taken ∧ casing.same text piece = true

namespace Place.GivesBack

variable {casing : Casing} {a b c : Place} {taken taken' s t : Bytes}

theorem ofCaptures (hrest : a.rest = taken ++ b.rest) (hsame : casing.same t taken = true)
    (hcaptures : b.captures = a.captures) :
  GivesBack casing a taken t b
  where
  rest := hrest
  same := hsame
  pieces _ _ htext := Or.inl (hcaptures ▸ htext)

theorem refl (a : Place) :
  GivesBack casing a [] [] a
  := .ofCaptures rfl (Casing.same_refl []) rfl

theorem append (h : GivesBack casing a taken s b) (h' : GivesBack casing b taken' t c) :
  GivesBack casing a (taken ++ taken') (s ++ t) c
  where
  rest := by rw [h.rest, h'.rest, List.append_assoc]
  same := Casing.same_append h.same h'.same
  pieces number text htext := by
    obtain htext | ⟨piece, hpiece, hsame⟩ := h'.pieces number text htext
    · obtain htext | ⟨piece, hpiece, hsame⟩ := h.pieces number text htext
      · exact Or.inl htext
      · exact Or.inr ⟨piece, hpiece.trans (List.prefix_append taken taken').isInfix, hsame⟩
    · exact Or.inr ⟨piece, hpiece.trans (List.suffix_append taken taken').isInfix, hsame⟩

/-- What is rendered may be captured. -/
theorem capture (h : GivesBack casing a taken t b) (number : Nat) :
  GivesBack casing a taken t (b.capture number t)
  where
  rest := h.rest
  same := h.same
  pieces n text htext := by
    rw [Place.capture, Captures.get?_put] at htext
    split at htext
    · obtain rfl := Option.some.inj htext
      exact Or.inr ⟨taken, List.infix_refl taken, h.same⟩
    · apply h.pieces n text htext

end Place.GivesBack

/-! ### Ways that give back -/

namespace Way

/-- Up to `casing` the way renders what it takes, and captures pieces of it. -/
def GivesBack (casing : Casing) (W : Way) : Prop :=
  W.Within fun a t b => ∃ taken, a.GivesBack casing taken t b

variable {casing : Casing}

theorem composes_givesBack :
  Composes fun a t b => ∃ taken, a.GivesBack casing taken t b
  where
  refl a := ⟨[], .refl a⟩
  trans h h' := by
    obtain ⟨taken, h⟩ := h
    obtain ⟨taken', h'⟩ := h'
    exact ⟨taken ++ taken', h.append h'⟩

theorem givesBack_copyByte (accepts : UInt8 → Bool) :
  (copyByte accepts).GivesBack casing
  := by
  rintro a t b ⟨c, -, hrest, hcaptures, rfl⟩
  use [c]
  apply Place.GivesBack.ofCaptures hrest (Casing.same_refl [c]) hcaptures

theorem givesBack_replaceText {casing' : Casing} (text : Bytes)
    (hstricter : casing = .exact → casing' = .exact) :
  (replaceText casing' text text).GivesBack casing
  := by
  rintro a t b ⟨s, hs, hrest, hcaptures, rfl⟩
  use s
  apply Place.GivesBack.ofCaptures hrest (Casing.same_of_stricter hstricter hs) hcaptures

theorem GivesBack.enclose {W : Way} (hW : W.GivesBack casing) (number : Nat) :
  (W.enclose number none).GivesBack casing
  := by
  rintro a t c ⟨s, b, hs, ht, rfl⟩
  obtain rfl : t = s := ht
  obtain ⟨taken, h⟩ := hW a t b hs
  use taken
  apply h.capture number

end Way

/-! ### Nodes that replace nothing -/

namespace Node

/-- The node itself replaces no text by another one: a literal and the members of a class are
replaced by themselves, and the branches of a group have no replacement. -/
def Plain (lexicon : Lexicon) : Node → Prop
  | leaf (.literal text replacement) _ => replacement = text
  | leaf (.memberOf id) _ =>
    ∀ c ∈ lexicon.get? id, ∀ m ∈ c.members, m.replacement = m.text
  | leaf _ _ => True
  | group _ branches _ => ∀ b ∈ branches, b.replacement = none

/-- Case counts in the texts of the node itself: it is no literal, and if it is a class then
case counts in it. -/
def CaseCounts (lexicon : Lexicon) : Node → Prop
  | leaf (.literal _ _) _ => False
  | leaf (.memberOf id) _ => ∀ c ∈ lexicon.get? id, c.casing = .exact
  | _ => True

instance (lexicon : Lexicon) : DecidablePred (Plain lexicon)
  | leaf (.literal text replacement) _ => inferInstanceAs (Decidable (replacement = text))
  | leaf (.memberOf id) _ =>
    inferInstanceAs (Decidable (∀ c ∈ lexicon.get? id, ∀ m ∈ c.members, m.replacement = m.text))
  | leaf (.byte _) _ => isTrue trivial
  | leaf (.set _) _ => isTrue trivial
  | leaf .wordEnd _ => isTrue trivial
  | leaf .remainder _ => isTrue trivial
  | group _ branches _ => inferInstanceAs (Decidable (∀ b ∈ branches, b.replacement = none))

instance (lexicon : Lexicon) : DecidablePred (CaseCounts lexicon)
  | leaf (.literal _ _) _ => isFalse id
  | leaf (.memberOf id) _ =>
    inferInstanceAs (Decidable (∀ c ∈ lexicon.get? id, c.casing = .exact))
  | leaf (.byte _) _ => isTrue trivial
  | leaf (.set _) _ => isTrue trivial
  | leaf .wordEnd _ => isTrue trivial
  | leaf .remainder _ => isTrue trivial
  | group _ _ _ => isTrue trivial

/-- The nodes of a chain at any depth are plain, and case counts in them if it counts in the
comparison `casing`. -/
def EachPlain (casing : Casing) (lexicon : Lexicon) (nodes : List Node) : Prop :=
  ∀ n : Node, n.Occurs nodes → n.Plain lexicon ∧ (casing = .exact → n.CaseCounts lexicon)

end Node

namespace Ways

variable {casing : Casing} (w : Ways)

theorem givesBack_leaf {reps : Reps} {content : Leaf}
    (hplain : (Node.leaf content reps).Plain w.lexicon)
    (hcase : casing = .exact → (Node.leaf content reps).CaseCounts w.lexicon) :
  (w.leaf reps content).GivesBack casing
  := by
  apply w.within_leaf Way.composes_givesBack reps Way.givesBack_copyByte
  · intro a
    exact ⟨a.rest, .ofCaptures (List.append_nil a.rest).symm (Casing.same_refl a.rest) rfl⟩
  · rintro text replacement rfl
    obtain rfl : replacement = text := hplain
    exact Way.givesBack_replaceText replacement fun h => (hcase h).elim
  · rintro id rfl a t b ⟨c, hc, m, hm, hw⟩
    have hself : m.replacement = m.text := hplain c hc m hm
    rw [hself] at hw
    exact Way.givesBack_replaceText m.text (fun h => hcase h c hc) a t b hw

theorem givesBack_chain {nodes : List Node} (h : Node.EachPlain casing w.lexicon nodes) :
  (w.chain nodes).GivesBack casing
  := by
  apply w.within_chain Way.composes_givesBack
  · intro content reps ho
    obtain ⟨hplain, hcase⟩ := h _ ho
    exact w.givesBack_leaf hplain hcase
  · intro number branches reps ho b hb W hW
    have hnone : b.replacement = none := (h _ ho).1 b hb
    rw [hnone]
    exact Way.GivesBack.enclose hW number

end Ways

/-! ### Patterns that replace nothing -/

/-- Up to `casing` the path has given out `taken`, and what it has captured are pieces
of that. -/
structure Path.GivesBack (casing : Casing) (taken : Bytes) (p : Path) : Prop where
  same : casing.same p.output taken = true
  pieces : ∀ number, ∀ text ∈ p.captures.get? number,
    ∃ piece, piece <:+: taken ∧ casing.same text piece = true

namespace Pattern

variable {pattern : Pattern} {lexicon : Lexicon}

/-- The path of the longest match has given out what it has taken, and has captured pieces
of that. -/
theorem givesBack_longestPath? {casing : Casing}
    (h : Node.EachPlain casing lexicon pattern.nodes) {word : Bytes} {p : Path}
    (hp : pattern.longestPath? lexicon word = some p) :
  p.GivesBack casing (word.take (word.length - p.left))
  := by
  obtain ⟨t, b, hw, rfl⟩ := exists_way_of_longestPath? hp
  obtain ⟨taken, hback⟩ := (Ways.every lexicon).givesBack_chain h _ _ _ hw
  have hword : word = taken ++ b.rest := hback.rest
  have htake : word.take (word.length - b.rest.length) = taken := by simp [hword]
  rw [Path.left, Path.rest_along, htake]
  constructor
  · simpa [Path.output, Path.along, Path.start] using hback.same
  · intro number text htext
    obtain hnone | hpiece := hback.pieces number text htext
    · rw [Place.start, Captures.get?_none] at hnone
      cases hnone
    · exact hpiece

/-- A pattern that replaces nothing gives out what it takes of a word, up to case, and captures
pieces of that; if case counts in all its texts, it gives out exactly what it takes.  A text
that it matches whole comes out as a text with the same letters. -/
theorem givesBack_of_plain (hplain : ∀ n : Node, n.Occurs pattern.nodes → n.Plain lexicon) :
  (∀ word, ∀ m ∈ pattern.longestMatch? lexicon word,
    ∃ p ∈ pattern.longestPath? lexicon word, m = Match.ofPath word p ∧
      p.GivesBack .folded (word.take m.length) ∧
      ((∀ n : Node, n.Occurs pattern.nodes → n.CaseCounts lexicon) →
        p.output = word.take m.length)) ∧
  ∀ text : String, ∀ m ∈ pattern.wholeMatch? lexicon (Utf8.encode text),
    m.output.toLower = text.toLower ∧
      ∃ p ∈ pattern.longestPath? lexicon (Utf8.encode text), Utf8.decode? p.output = some m.output
  := by
  have hfolded : Node.EachPlain .folded lexicon pattern.nodes :=
    fun n hn => ⟨hplain n hn, fun h => nomatch h⟩
  constructor
  · intro word m hm
    obtain ⟨p, hp, rfl⟩ := Option.map_eq_some_iff.mp hm
    refine ⟨p, hp, rfl, givesBack_longestPath? hfolded hp, ?_⟩
    intro hcase
    have hexact : Node.EachPlain .exact lexicon pattern.nodes :=
      fun n hn => ⟨hplain n hn, fun _ => hcase n hn⟩
    apply Casing.eq_of_same_exact (givesBack_longestPath? hexact hp).same
  · intro text m hm
    obtain ⟨hm, hwhole⟩ := Option.filter_eq_some_iff.mp hm
    obtain ⟨p, hp, rfl⟩ := Option.map_eq_some_iff.mp hm
    have hback := (givesBack_longestPath? hfolded hp).same
    have hall : (Utf8.encode text).length - p.left = (Utf8.encode text).length :=
      of_decide_eq_true hwhole
    rw [hall, List.take_length] at hback
    obtain ⟨output, hdecode?, hdecode, hcase⟩ := Utf8.exists_text_of_case (Casing.same_iff.mp hback)
    rw [Match.ofPath]
    dsimp only
    rw [hdecode]
    exact ⟨hcase, p, hp, hdecode?⟩

/-- Letters in another case, members that are replaced by themselves and captured pieces. -/
theorem givesBack_of_plain_pattern :
  let r := Reading.ofSource (Utf8.encode "(<v:bc,a>,d)+ß*[x]?") .empty
  let text := "BcaDßx"
  (∀ n : Node, n.Occurs r.pattern.nodes → n.Plain r.lexicon) ∧
    ∃ m ∈ r.pattern.wholeMatch? r.lexicon (Utf8.encode text), m.output.toLower = text.toLower
  := by
  intro r text
  have hplain : ∀ n : Node, n.Occurs r.pattern.nodes → n.Plain r.lexicon := by decide +kernel
  have hmatch : (r.pattern.wholeMatch? r.lexicon (Utf8.encode text)).isSome := by decide +kernel
  obtain ⟨m, hm⟩ := Option.isSome_iff_exists.mp hmatch
  exact ⟨hplain, m, hm, ((givesBack_of_plain hplain).2 text m hm).1⟩

end Pattern

end Respell
