import Respell.Proofs.Search.Followed
import Respell.Proofs.Trail

/-!
# Searches stay in bounds

A search by positions cuts its parts out of the word and keeps its sums in bounds, whatever the
pattern is, however it may be repeated, and whichever classes there are.  It comes to an end: the
rounds of a repetition are never more than the positions from where they begin to the end of the
word, as all of them but the last one move on.
-/

namespace Respell

/-- The match at an arrival is the one that the path makes. -/
theorem Arrival.Within.ofPath {word : Bytes} {pos : Nat} {a : Arrival} (h : a.Within word pos) :
  Match.ofPath word (a.path word) = a.toMatch
  := by
  have hleft : word.length - (a.path word).left = a.stop := by
    rw [h.left_path.2, Nat.sub_sub_self h.stop_le]
  have houtput : (a.path word).output = a.trail.output := List.reverse_reverse _
  rw [Match.ofPath, hleft, houtput, toMatch]
  rfl

/-- From each position in a word a walk along all that remains returns, if the marks of the
branches that were entered are nested within the output. -/
theorem Next.walk_eq (lexicon : Lexicon) {word : Bytes} {next : Next} {pos : Nat} {t : Trail}
    (hfits : next.Fits t.output.length) (hpos : pos ≤ word.length) :
  ∃ r, next.walk lexicon word pos t = some (r, t) ∧ r.Within word pos
  := by
  obtain ⟨r, hr, -⟩ := mirrors_probe (.untilWordEnd lexicon) hfits (word.drop pos) t
    (nested_outputs next t.output)
  obtain ⟨r', hwalk, -, hwithin⟩ := next.follows_walk lexicon word pos hpos t r t hr
  exact ⟨r', hwalk, hwithin⟩

namespace Pattern

/-- Walking along a pattern by positions always brings back a result, which is the longest match.
So no part is cut out that the word does not have, no mark is behind the end of the output, no
position or count is more than one greater than the length of the word, and no more rounds of
a repetition are begun than there are positions from the first of them on, one behind the last
byte included.  In the course of it the walk along whatever remains begins at a position in the
word, with the marks of the branches that were entered nested within the output.  From there it
returns with the trail as it was, and gets to no position in front of that one or behind the end
of the word. -/
theorem walkedMatch?_eq_longestMatch? (pattern : Pattern) (lexicon : Lexicon) (word : Bytes) :
  pattern.walkedMatch? lexicon word = some (pattern.longestMatch? lexicon word) ∧
    ∀ (next : Next) (pos : Nat) (t : Trail), next.Fits t.output.length → pos ≤ word.length →
      ∃ r, next.walk lexicon word pos t = some (r, t) ∧ r.Within word pos
  := by
  constructor
  · obtain ⟨r, hr, hfound⟩ := pattern.longestPath?_eq_found lexicon word
    obtain ⟨r', hwalk, rfl, hwithin⟩ := (Next.seq pattern.nodes .done).follows_walk lexicon word 0
      (Nat.zero_le _) .start r .start hr
    rw [walkedMatch?, hwalk, Option.map_some, longestMatch?, ← hfound]
    change some (r'.found.map Arrival.toMatch) =
      some ((r'.found.map (Arrival.path word)).map (Match.ofPath word))
    rw [Option.map_map]
    apply congrArg some
    apply Option.map_congr
    exact fun a ha => (hwithin.found a ha).ofPath.symm
  · exact fun next pos t hfits hpos => Next.walk_eq lexicon hfits hpos

/-- A group that may take nothing in a round and that has no capture of its own, twice or more
often at the end of a branch: between the `a` in front of it and a `b`. -/
theorem walkedMatch?_eq_longestMatch?_of_empty_branch :
  let node : Node :=
    .group 77 [⟨[], none⟩, ⟨[.leaf (.byte 0x61) .once], some [0x78]⟩] (.between 2 none)
  let next : Next := .close ⟨1, none, 1, true⟩ (.seq [node] .done)
  let t : Trail := ⟨[0x61, 0x61], .none⟩
  let found : Arrival := ⟨2, ⟨[0x61, 0x61, 0x78], Captures.none.put 1 [0x61]⟩⟩
  next.Fits t.output.length ∧ 1 ≤ 3 ∧
    ∃ r, next.walk .empty [0x61, 0x61, 0x62] 1 t = some (r, t) ∧ r.found = some found ∧
      r.Within [0x61, 0x61, 0x62] 1
  := by
  intro node next t found
  have hfits : next.Fits t.output.length := ⟨by decide, trivial⟩
  have hpos : 1 ≤ 3 := by decide
  obtain ⟨r, hr, hwithin⟩ :=
    (walkedMatch?_eq_longestMatch? (.ofNodes [node]) .empty [0x61, 0x61, 0x62]).2 next 1 t hfits hpos
  have hfound : (next.walk .empty [0x61, 0x61, 0x62] 1 t).map (fun x => x.1.found) =
      some (some found) := by decide +kernel
  rw [hr] at hfound
  exact ⟨hfits, hpos, r, hr, Option.some.inj hfound, hwithin⟩

/-- A walk does not return from the end of a branch that is marked behind the end of the output. -/
example :
  (Next.close ⟨1, none, 3, true⟩ .done).walk .empty [0x61] 0 ⟨[0x61], .none⟩ = none
  := rfl

end Pattern

end Respell
