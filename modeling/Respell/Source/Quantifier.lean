import Respell.Pattern.Reps
import Respell.Source.Scan

/-!
# Quantifiers

A quantifier follows what it repeats: one of three marks, or a count of the form `{D}`,
`{D,}` or `{D,E}` with decimal bounds below 2⁶⁴.  An opening brace that begins no such
count is not a quantifier.
-/

namespace Respell.Source

/-- The number written by decimal digits. -/
def decimal (digits : Bytes) : Nat :=
  digits.foldl (fun n d => 10 * n + (d.toNat - 0x30)) 0

/-- Bounds of repetition are below this number. -/
def countLimit : Nat := UInt64.size

/-- The number written by the digits in front, if there are any and it is below the
limit. -/
def number? (s : Bytes) : Option (Nat × Bytes) :=
  let digits := s.takeWhile Byte.isDigit
  if digits.isEmpty || countLimit ≤ decimal digits then none
  else some (decimal digits, s.dropWhile Byte.isDigit)

/-- The bounds given by a count, without its opening brace, and what follows it. -/
def count? (s : Bytes) : Option (Reps × Bytes) :=
  match number? s with
  | none => none
  | some (least, s) =>
    match after? Mark.countClose s, after? Mark.comma s with
    | some rest, _ => some (.between least (some least), rest)
    | none, none => none
    | none, some s =>
      match after? Mark.countClose s, number? s with
      | some rest, _ => some (.between least none, rest)
      | none, none => none
      | none, some (most, s) =>
        (after? Mark.countClose s).map fun rest => (.between least (some most), rest)

/-- The bounds given by the quantifier in front, if there is one, and what follows it. -/
def quantifier? : Bytes → Option (Reps × Bytes)
  | [] => none
  | b :: rest =>
    if b = Mark.optional then some (.optional, rest)
    else if b = Mark.star then some (.anyNumber, rest)
    else if b = Mark.plus then some (.oneOrMore, rest)
    else if b = Mark.countOpen then count? rest
    else none

/-- The bytes start with a quantifier. -/
def startsQuantifier (s : Bytes) : Bool := (quantifier? s).isSome

/-- The bytes start with an opening brace that begins no count. -/
def startsMalformedCount (s : Bytes) : Bool :=
  s.head? = some Mark.countOpen && !startsQuantifier s

/-- The warning about a malformed count, if the bytes start with one. -/
def malformedCount (total : Nat) (s : Bytes) : List Warning :=
  if startsMalformedCount s then [.malformedCount (position total s)] else []

/-- The bounds for what was read just before: those of the quantifier in front, or once if
there is none.  A malformed count is left where it is. -/
def quantifier (total : Nat) (s : Bytes) : Scan Reps :=
  match quantifier? s with
  | some (reps, rest) => ⟨reps, rest, []⟩
  | none => ⟨.once, s, malformedCount total s⟩

/-! ### Quantifiers are read from the front -/

theorem length_of_number? {s rest : Bytes} {n : Nat} (h : number? s = some (n, rest)) :
  rest.length ≤ s.length
  := by
  simp only [number?] at h
  split at h
  · cases h
  · cases h
    apply (List.dropWhile_suffix _).length_le

theorem length_of_count? {s rest : Bytes} {reps : Reps} (h : count? s = some (reps, rest)) :
  rest.length ≤ s.length
  := by
  unfold count? at h
  split at h
  · cases h
  · next least s' hn =>
    have hn := length_of_number? hn
    split at h
    · next hc =>
      cases h
      have := length_of_after? hc
      omega
    · cases h
    · next t _ ht =>
      have ht := length_of_after? ht
      split at h
      · next hc =>
        cases h
        have := length_of_after? hc
        omega
      · cases h
      · next most u _ hu =>
        have hu := length_of_number? hu
        obtain ⟨r, hr, he⟩ := Option.map_eq_some_iff.1 h
        cases he
        have := length_of_after? hr
        omega

theorem length_of_quantifier? {s rest : Bytes} {reps : Reps}
    (h : quantifier? s = some (reps, rest)) :
  rest.length < s.length
  := by
  cases s with
  | nil => cases h
  | cons b s =>
    simp only [quantifier?] at h
    repeat' split at h
    · cases h
      apply Nat.lt_succ_self
    · cases h
      apply Nat.lt_succ_self
    · cases h
      apply Nat.lt_succ_self
    · apply Nat.lt_succ_of_le (length_of_count? h)
    · cases h

theorem length_quantifier_le (total : Nat) (s : Bytes) :
  (quantifier total s).rest.length ≤ s.length
  := by
  unfold quantifier
  split
  · next h => apply Nat.le_of_lt (length_of_quantifier? h)
  · apply Nat.le_refl

end Respell.Source
