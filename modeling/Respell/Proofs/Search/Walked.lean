import Respell.Proofs.Search.Outcome
import Respell.Proofs.Search.Walk

/-!
# What walks bring back

A position in a word stands for what the word has from there on.  Told in this way, what a walk
brings back is what a probe does: the path that gets farthest leaves the least.  This needs all
positions to be in the word, as nothing is left behind the end of it.
-/

namespace Respell

/-- The path to an arrival. -/
def Arrival.path (word : Bytes) (a : Arrival) : Path := a.trail.path (word.drop a.stop)

/-- A turn, told by how much of the word is left. -/
def Turn.exit (word : Bytes) (e : Turn) : Exit :=
  ⟨word.drop e.stop, e.text, e.captures, e.reach.map (word.length - ·)⟩

/-- What was found, told by how much of the word is left. -/
def Walked.probed (word : Bytes) (r : Walked) : Probed :=
  ⟨r.found.map (Arrival.path word), r.turns.map (Option.map (Turn.exit word))⟩

/-- An arrival between a position and the end of the word. -/
structure Arrival.Within (word : Bytes) (pos : Nat) (a : Arrival) : Prop where
  ahead : pos ≤ a.stop
  stop_le : a.stop ≤ word.length

/-- A turn between a position and the end of the word, from where nothing behind the end is
reached. -/
structure Turn.Within (word : Bytes) (pos : Nat) (e : Turn) : Prop where
  ahead : pos ≤ e.stop
  stop_le : e.stop ≤ word.length
  reach_le : ∀ n ∈ e.reach, n ≤ word.length

/-- All that was found is between a position and the end of the word. -/
structure Walked.Within (word : Bytes) (pos : Nat) (r : Walked) : Prop where
  found : ∀ a ∈ r.found, a.Within word pos
  turns : ∀ e, some e ∈ r.turns → e.Within word pos

section Farthest

variable {α : Type} {reach : α → Nat} {a b : Option α}

theorem mem_of_mem_farthest {x : α} (h : x ∈ farthest reach a b) :
  x ∈ a ∨ x ∈ b
  := by
  cases a with
  | none =>
      right
      apply h
  | some y =>
      cases b with
      | none =>
          left
          apply h
      | some z =>
          simp only [farthest] at h
          split at h
          · right
            apply h
          · left
            apply h

/-- What gets farthest leaves the least, as long as nothing gets any farther than `n`. -/
theorem map_farthest {β : Type} (left : β → Nat) {f : α → β} {n : Nat}
    (ha : ∀ x ∈ a, reach x ≤ n ∧ left (f x) = n - reach x)
    (hb : ∀ x ∈ b, reach x ≤ n ∧ left (f x) = n - reach x) :
  (farthest reach a b).map f = closest left (a.map f) (b.map f)
  := by
  cases a with
  | none => rfl
  | some x =>
      cases b with
      | none => rfl
      | some y =>
          obtain ⟨hxn, hx⟩ := ha x rfl
          obtain ⟨hyn, hy⟩ := hb y rfl
          have hiff : reach x < reach y ↔ left (f y) < left (f x) := by omega
          simp only [farthest, closest, Option.map_some, hiff]
          split
          · rfl
          · rfl

end Farthest

section Within

variable {word : Bytes} {pos : Nat}

theorem Arrival.Within.left_path {a : Arrival} (h : a.Within word pos) :
  a.stop ≤ word.length ∧ (a.path word).left = word.length - a.stop
  := ⟨h.stop_le, List.length_drop⟩

theorem Turn.Within.left_exit {e : Turn} (h : e.Within word pos) :
  e.rank ≤ word.length ∧ (e.exit word).left = word.length - e.rank
  := by
  obtain ⟨stop, text, captures, reach⟩ := e
  cases reach with
  | none => exact ⟨h.stop_le, List.length_drop⟩
  | some n =>
      have hstop : stop ≤ word.length := h.stop_le
      have hn : n ≤ word.length := h.reach_le n rfl
      constructor
      · exact Nat.max_le.mpr ⟨hn, hstop⟩
      · change min (word.length - n) (word.drop stop).length = word.length - max n stop
        rw [List.length_drop]
        omega

namespace Walked

theorem Within.mono {r : Walked} (h : r.Within word pos) {start : Nat} (hle : start ≤ pos) :
  r.Within word start
  := by
  constructor
  · intro a ha
    exact ⟨Nat.le_trans hle (h.found a ha).ahead, (h.found a ha).stop_le⟩
  · intro e he
    have hturn := h.turns e he
    exact ⟨Nat.le_trans hle hturn.ahead, hturn.stop_le, hturn.reach_le⟩

theorem within_fail :
  fail.Within word pos
  := by
  constructor
  · exact fun a ha => absurd ha (Option.not_mem_none a)
  · exact fun e he => absurd he List.not_mem_nil

theorem within_joinTurns {ds es : List (Option Turn)}
    (hd : ∀ e, some e ∈ ds → e.Within word pos) (he : ∀ e, some e ∈ es → e.Within word pos) :
  ∀ e, some e ∈ joinTurns ds es → e.Within word pos
  := by
  induction ds generalizing es with
  | nil => exact he
  | cons d ds ih =>
      cases es with
      | nil => exact hd
      | cons c es =>
          intro e hmem
          rcases List.mem_cons.mp hmem with heq | hmem
          · rcases mem_of_mem_farthest (Option.mem_def.mpr heq.symm) with hmem | hmem
            · exact hd e (hmem ▸ List.mem_cons_self)
            · exact he e (hmem ▸ List.mem_cons_self)
          · exact ih (fun e h => hd e (List.mem_cons_of_mem d h))
              (fun e h => he e (List.mem_cons_of_mem c h)) e hmem

theorem map_joinTurns {ds es : List (Option Turn)}
    (hd : ∀ e, some e ∈ ds → e.Within word pos) (he : ∀ e, some e ∈ es → e.Within word pos) :
  (joinTurns ds es).map (Option.map (Turn.exit word)) =
    Probed.joinExits (ds.map (Option.map (Turn.exit word))) (es.map (Option.map (Turn.exit word)))
  := by
  induction ds generalizing es with
  | nil => rfl
  | cons d ds ih =>
      cases es with
      | nil => rfl
      | cons c es =>
          have hfirst := map_farthest Exit.left
            (fun e h => (hd e (h ▸ List.mem_cons_self)).left_exit)
            (fun e h => (he e (h ▸ List.mem_cons_self)).left_exit)
          exact congr (congrArg List.cons hfirst) (ih
            (fun e h => hd e (List.mem_cons_of_mem d h)) fun e h => he e (List.mem_cons_of_mem c h))

section Join

variable {a b : Walked} (ha : a.Within word pos) (hb : b.Within word pos)
include ha hb

theorem Within.orElse :
  (a.orElse b).Within word pos
  := ⟨fun x hx => (mem_of_mem_farthest hx).elim (ha.found x) (hb.found x),
    within_joinTurns ha.turns hb.turns⟩

theorem Within.orRather :
  (a.orRather b).Within word pos
  := ⟨fun x hx => (mem_of_mem_farthest hx).elim (hb.found x) (ha.found x),
    within_joinTurns ha.turns hb.turns⟩

theorem probed_orElse :
  (a.orElse b).probed word = (a.probed word).orElse (b.probed word)
  := congr
    (congrArg Probed.mk (map_farthest Path.left (fun x hx => (ha.found x hx).left_path)
      fun x hx => (hb.found x hx).left_path))
    (map_joinTurns ha.turns hb.turns)

theorem probed_orRather :
  (a.orRather b).probed word = (a.probed word).orRather (b.probed word)
  := congr
    (congrArg Probed.mk (map_farthest Path.left (fun x hx => (hb.found x hx).left_path)
      fun x hx => (ha.found x hx).left_path))
    (map_joinTurns ha.turns hb.turns)

end Join

variable {r : Walked} (h : r.Within word pos)

theorem probed_outside :
  r.outside.probed word = (r.probed word).outside
  := congrArg (Probed.mk _) List.map_tail

theorem exit?_probed :
  (r.probed word).exit? = r.turn?.map (Turn.exit word)
  := by
  obtain ⟨found, turns⟩ := r
  cases turns with
  | nil => rfl
  | cons e es => rfl

include h

theorem Within.outside :
  r.outside.Within word pos
  := ⟨h.found, fun e he => h.turns e (List.mem_of_mem_tail he)⟩

theorem Within.turn? (e : Turn) (he : r.turn? = some e) :
  e.Within word pos
  := by
  obtain ⟨found, turns⟩ := r
  cases turns with
  | nil => cases he
  | cons d es =>
      obtain rfl : d = some e := he
      exact h.turns e List.mem_cons_self

/-- A turn that is not in front of where the walk began, from which nothing was found in front
of it either. -/
theorem Within.turning {stop : Nat} (hahead : pos ≤ stop) (hstop : stop ≤ word.length)
    (text : Bytes) (captures : Captures Bytes) :
  (r.turning stop text captures).Within word pos
  := by
  constructor
  · exact h.found
  · intro e he
    rcases List.mem_cons.mp he with heq | he
    · obtain rfl := Option.some.inj heq
      refine ⟨hahead, hstop, ?_⟩
      intro n hn
      obtain ⟨a, ha, rfl⟩ := Option.map_eq_some_iff.mp hn
      exact (h.found a ha).stop_le
    · exact h.turns e he

/-- To take the whole word is to leave nothing of it. -/
theorem satisfies_probed (lexicon : Lexicon) :
  (r.probed word).satisfies (Search.untilWordEnd lexicon).enough = r.isFull word
  := by
  obtain ⟨found, turns⟩ := r
  cases found with
  | none => rfl
  | some a =>
      have hstop := (h.found a rfl).stop_le
      change (word.drop a.stop).isEmpty = decide (a.stop = word.length)
      rw [Bool.eq_iff_iff, List.isEmpty_iff, List.drop_eq_nil_iff, decide_eq_true_eq]
      omega

omit h in
theorem probed_turning (stop : Nat) (text : Bytes) (captures : Captures Bytes) :
  (r.turning stop text captures).probed word =
    (r.probed word).exiting (word.drop stop) text captures
  := by
  have hreach : (r.found.map Arrival.stop).map (word.length - ·) =
      (r.found.map (Arrival.path word)).map Path.left := by
    rw [Option.map_map, Option.map_map]
    apply congrArg (Option.map · r.found)
    funext a
    exact List.length_drop.symm
  exact congrArg (fun reach => Probed.mk _ (some ⟨_, text, captures, reach⟩ :: _)) hreach

end Walked

end Within

end Respell
