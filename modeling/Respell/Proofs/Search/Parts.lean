import Respell.Proofs.NamedClass.Finding
import Respell.Proofs.Search.Outcome
import Respell.Proofs.Search.Walk

/-!
# Parts of a word and alternatives

A walk cuts a word into parts and counts those that it can take, where a probe takes one after the
other.  The members of a class are found by searching for them, where a probe tries all of them.
-/

namespace Respell

/-! ### Parts of a word -/

namespace Walk

variable {word : Bytes}

theorem from?_of_le {pos : Nat} (h : pos ≤ word.length) :
  from? word pos = some (word.drop pos)
  := if_pos h

theorem upTo?_of_le {s : Bytes} {n : Nat} (h : n ≤ s.length) :
  upTo? s n = some (s.take n)
  := if_pos h

theorem within?_of_le {n : Nat} (h : n ≤ word.length + 1) :
  within? word n = some n
  := if_pos h

/-- The parts are those that are complete. -/
theorem getElem?_chunks {size : Nat} (hsize : 0 < size) (s : Bytes) (n : Nat) :
  (chunks size s)[n]? =
    if (n + 1) * size ≤ s.length then some ((s.drop (n * size)).take size) else none
  := by
  fun_induction chunks size s generalizing n with
  | case1 s h ih =>
      cases n with
      | zero =>
          rw [Nat.zero_mul, Nat.zero_add, Nat.one_mul, if_pos h.2]
          rfl
      | succ n =>
          have hnext : size + n * size = (n + 1) * size := by rw [Nat.succ_mul, Nat.add_comm]
          have hafter : (n + 1 + 1) * size = (n + 1) * size + size := Nat.succ_mul (n + 1) size
          have hiff : (n + 1) * size ≤ s.length - size ↔ (n + 1 + 1) * size ≤ s.length := by omega
          rw [List.getElem?_cons_succ, ih, List.length_drop, List.drop_drop, hnext]
          simp only [hiff]
  | case2 s h =>
      have hshort : s.length < size := by
        by_contra hle
        exact h ⟨hsize, Nat.le_of_not_lt hle⟩
      have hle : size ≤ (n + 1) * size := Nat.le_mul_of_pos_left size n.succ_pos
      rw [if_neg (by omega)]
      rfl

/-- The parts of a rest that has as many bytes as there can be parts. -/
theorem length_chunks_le {size : Nat} (hsize : 0 < size) (s : Bytes) :
  (chunks size s).length ≤ s.length
  := by
  have hle : s.length + 1 ≤ (s.length + 1) * size := Nat.le_mul_of_pos_right _ hsize
  have hnone : (chunks size s)[s.length]? = none := by
    rw [getElem?_chunks hsize]
    exact if_neg (Nat.not_le_of_lt hle)
  exact List.getElem?_eq_none_iff.mp hnone

theorem mul_le_of_le_length_chunks {size : Nat} (hsize : 0 < size) {s : Bytes} {n : Nat}
    (hn : n ≤ (chunks size s).length) :
  n * size ≤ s.length
  := by
  cases n with
  | zero =>
      rw [Nat.zero_mul]
      apply Nat.zero_le
  | succ n =>
      have hsome := getElem?_chunks hsize s n
      rw [List.getElem?_eq_getElem hn] at hsome
      by_contra hnot
      rw [if_neg hnot] at hsome
      cases hsome

end Walk

/-! ### Counting repetitions -/

namespace Path

/-- A step that takes one part after the other goes on until there is one that it does not take. -/
theorem iterates_eq_map {α : Type} {step? : Path → Option Path} {accepts : α → Bool}
    {place : Nat → Path} {parts : List α} (most : Nat)
    (hstep : ∀ n, step? (place n) = if parts[n]?.any accepts then some (place (n + 1)) else none) :
  iterates step? most (place 0) =
    (List.range (((parts.take most).takeWhile accepts).length + 1)).map place
  := by
  induction most generalizing place parts with
  | zero => rfl
  | succ most ih =>
      have hfirst := hstep 0
      rw [iterates, hfirst]
      cases parts with
      | nil => rfl
      | cons x xs =>
          have hrest := ih fun n => hstep (n + 1)
          rw [List.take_succ_cons, List.getElem?_cons_zero, Option.any_some]
          by_cases hx : accepts x = true
          · rw [if_pos hx, List.takeWhile_cons_of_pos hx, List.length_cons,
              List.range_succ_eq_map, List.map_cons, List.map_map]
            exact congrArg (List.cons (place 0)) hrest
          · rw [if_neg hx, List.takeWhile_cons_of_neg hx]
            rfl

/-- After the first `n` bytes of a word, given out as they are. -/
def copied (rest : Bytes) (n : Nat) : Path := ⟨rest.drop n, (rest.take n).reverse, .none⟩

/-- After the first `n` copies of a text, with the replacement given out for each. -/
def replaced (size : Nat) (replacement rest : Bytes) (n : Nat) : Path :=
  ⟨rest.drop (n * size), (List.replicate n replacement).flatten.reverse, .none⟩

theorem copyByte?_copied (accepts : UInt8 → Bool) (rest : Bytes) (n : Nat) :
  copyByte? accepts (copied rest n) =
    if rest[n]?.any accepts then some (copied rest (n + 1)) else none
  := by
  rw [copied, copied, copyByte?, ← List.head?_drop]
  cases h : rest.drop n with
  | nil => rfl
  | cons b more =>
      have hb : rest[n]? = some b := by rw [← List.head?_drop, h, List.head?_cons]
      have hmore : rest.drop (n + 1) = more := by rw [← List.tail_drop, h, List.tail_cons]
      rw [hmore, List.take_add_one, hb, List.reverse_append]
      rfl

theorem replaceText?_replaced {text : Bytes} (htext : 0 < text.length) (replacement rest : Bytes)
    (n : Nat) :
  replaceText? text replacement (replaced text.length replacement rest n) =
    if (Walk.chunks text.length rest)[n]?.any (Casing.folded.same text) then
      some (replaced text.length replacement rest (n + 1))
    else none
  := by
  have hnext : (n + 1) * text.length = n * text.length + text.length := Nat.succ_mul n text.length
  have hplace : (replaced text.length replacement rest n).advance text.length replacement =
      replaced text.length replacement rest (n + 1) := by
    rw [advance, replaced, replaced, List.drop_drop, ← hnext, List.replicate_succ',
      List.flatten_append, List.flatten_singleton, List.reverse_append]
  rw [replaceText?, hplace, Walk.getElem?_chunks htext]
  by_cases hle : (n + 1) * text.length ≤ rest.length
  · rw [if_pos hle]
    rfl
  · rw [if_neg hle]
    have hshort : (rest.drop (n * text.length)).length < text.length := by
      rw [List.length_drop]
      omega
    exact if_neg fun hlead => absurd (Casing.length_le_of_leads hlead) (Nat.not_le_of_lt hshort)

end Path

/-! ### Exploring some of the alternatives -/

namespace Probe

variable {α β : Type} {enough : Path → Bool} {best : Probed}

theorem explore_map (f : α → β) {probe : β → Trail → Option (Probed × Trail)} {as : List α}
    (t : Trail) :
  explore enough probe (as.map f) best t = explore enough (fun a => probe (f a)) as best t
  := by
  induction as generalizing best t with
  | nil => rfl
  | cons a as ih =>
      rw [List.map_cons, explore, explore]
      simp only [ih]

/-- Alternatives that do not find anything can be left out. -/
theorem explore_filter {probe : α → Trail → Option (Probed × Trail)} (finds : α → Bool)
    {as : List α} (h : ∀ a ∈ as, ¬ finds a = true → ∀ t, probe a t = some (.fail, t))
    (hbest : ¬ best.satisfies enough = true) (t : Trail) :
  explore enough probe (as.filter finds) best t = explore enough probe as best t
  := by
  induction as generalizing best t with
  | nil => rfl
  | cons a as ih =>
      have hrest : ∀ b ∈ as, ¬ finds b = true → ∀ t, probe b t = some (.fail, t) :=
        fun b hb => h b (List.mem_cons_of_mem a hb)
      by_cases ha : finds a = true
      · rw [List.filter_cons_of_pos ha, explore, explore]
        apply congrArg (Option.bind (probe a t))
        funext ⟨r, u⟩
        dsimp only
        split
        · rfl
        · next hnot => exact ih hrest hnot u
      · have hsame : best.orElse .fail = best := by
          obtain ⟨found, exits⟩ := best
          cases exits with
          | nil => exact congrArg (Probed.mk · []) (closest_none_right found)
          | cons e es => exact congrArg (Probed.mk · (e :: es)) (closest_none_right found)
        rw [List.filter_cons_of_neg ha, explore, h a List.mem_cons_self ha, Option.bind_some]
        dsimp only
        rw [hsame, if_neg hbest]
        apply ih hrest hbest

/-- In a round of a class it is enough to try the members that lead what is left of the word. -/
theorem round_members (c : NamedClass) (mayStop : Bool) (k : Probe) (rest : Bytes) (t : Trail) :
  round enough (c.members.map (member c.casing)) mayStop k rest t =
    explore enough (fun x => member c.casing x.1 mayStop k rest) (c.leadingFrom rest 0) .fail t
  := by
  have hbest : ¬ Probed.fail.satisfies enough = true := Bool.false_ne_true
  calc round enough (c.members.map (member c.casing)) mayStop k rest t
    _ = explore enough (fun m => member c.casing m mayStop k rest) c.members .fail t :=
      explore_map _ t
    _ = explore enough (fun m => member c.casing m mayStop k rest) (c.members.zipIdx.map Prod.fst)
        .fail t := by rw [List.zipIdx_map_fst]
    _ = explore enough (fun x => member c.casing x.1 mayStop k rest) c.members.zipIdx .fail t :=
      explore_map _ t
    _ = explore enough (fun x => member c.casing x.1 mayStop k rest) (c.leadingFrom rest 0)
        .fail t := by
      symm
      apply explore_filter _ _ hbest
      intro x _ hx u
      rw [member, if_neg hx]

end Probe

end Respell
