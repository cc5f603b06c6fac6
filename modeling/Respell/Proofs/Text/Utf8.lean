import Mathlib.Tactic.Common
import Respell.Proofs.Text.Case

/-!
# The bytes of a text are its characters

What `encode` writes is cut into the same characters again: the first byte of a character tells
how many bytes follow and in which intervals they lie, and each of them gives back six bits.
So the bytes of a text have no defect, and neither have bytes that differ from them in case only.
-/

namespace Respell.Utf8

theorem toNat_ofNat {n : Nat} (h : n < 256) :
  (UInt8.ofNat n).toNat = n
  := by
  rw [UInt8.toNat_ofNat']
  apply Nat.mod_eq_of_lt h

/-! ### First bytes -/

theorem lead?_one {n : Nat} (h : n ≤ 127) :
  lead? (UInt8.ofNat n) = some ⟨n, []⟩
  := by
  have hn : (UInt8.ofNat n).toNat = n := toNat_ofNat (by omega)
  unfold lead?
  simp only [UInt8.le_iff_toNat_le, hn, UInt8.reduceToNat]
  rw [if_pos h]

theorem lead?_two {n : Nat} (h : 194 ≤ n) (h' : n ≤ 223) :
  lead? (UInt8.ofNat n) = some ⟨n - 192, [continuation]⟩
  := by
  have hn : (UInt8.ofNat n).toNat = n := toNat_ofNat (by omega)
  unfold lead?
  simp only [UInt8.le_iff_toNat_le, UInt8.lt_iff_toNat_lt, hn, UInt8.reduceToNat]
  rw [if_neg (by omega), if_neg (by omega), if_pos h']

/-- The second of three bytes is restricted behind two of the first bytes. -/
theorem lead?_three {n : Nat} (h : 224 ≤ n) (h' : n ≤ 239) :
  ∃ low high : UInt8, lead? (UInt8.ofNat n) = some ⟨n - 224, [(low, high), continuation]⟩ ∧
    (low.toNat ≤ 128 ∨ n = 224 ∧ low.toNat ≤ 160) ∧
    (191 ≤ high.toNat ∨ n = 237 ∧ 159 ≤ high.toNat)
  := by
  have hn : (UInt8.ofNat n).toNat = n := toNat_ofNat (by omega)
  unfold lead?
  simp only [UInt8.le_iff_toNat_le, UInt8.lt_iff_toNat_lt, ← UInt8.toNat_inj, hn,
    UInt8.reduceToNat]
  rw [if_neg (by omega), if_neg (by omega), if_neg (by omega)]
  split
  · next hn => exact ⟨0xA0, 0xBF, by rw [hn], .inr ⟨hn, by decide⟩, .inl (by decide)⟩
  split
  · next hn => exact ⟨0x80, 0x9F, by rw [hn], .inl (by decide), .inr ⟨hn, by decide⟩⟩
  · exact ⟨0x80, 0xBF, rfl, .inl (by decide), .inl (by decide)⟩

/-- The second of four bytes is restricted behind two of the first bytes. -/
theorem lead?_four {n : Nat} (h : 240 ≤ n) (h' : n ≤ 244) :
  ∃ low high : UInt8,
    lead? (UInt8.ofNat n) = some ⟨n - 240, [(low, high), continuation, continuation]⟩ ∧
      (low.toNat ≤ 128 ∨ n = 240 ∧ low.toNat ≤ 144) ∧
      (191 ≤ high.toNat ∨ n = 244 ∧ 143 ≤ high.toNat)
  := by
  have hn : (UInt8.ofNat n).toNat = n := toNat_ofNat (by omega)
  unfold lead?
  simp only [UInt8.le_iff_toNat_le, UInt8.lt_iff_toNat_lt, ← UInt8.toNat_inj, hn,
    UInt8.reduceToNat]
  rw [if_neg (by omega), if_neg (by omega), if_neg (by omega), if_neg (by omega),
    if_neg (by omega), if_neg (by omega)]
  split
  · next hn => exact ⟨0x90, 0xBF, by rw [hn], .inr ⟨hn, by decide⟩, .inl (by decide)⟩
  split
  · exact ⟨0x80, 0xBF, rfl, .inl (by decide), .inl (by decide)⟩
  · have hn : n = 244 := by omega
    exact ⟨0x80, 0x8F, by rw [if_pos hn, hn], .inl (by decide), .inr ⟨hn, by decide⟩⟩

/-! ### Bytes that follow -/

/-- A byte in its interval gives six more bits. -/
theorem follow_cons {low high : UInt8} {k : Nat} (hk : k < 64) (hlow : low.toNat ≤ k + 128)
    (hhigh : k + 128 ≤ high.toNat) (intervals : List (UInt8 × UInt8)) (value : Nat)
    (rest : Bytes) :
  follow ((low, high) :: intervals) value (UInt8.ofNat (k + 128) :: rest) =
    follow intervals (value * 64 + k) rest
  := by
  have hn : (UInt8.ofNat (k + 128)).toNat = k + 128 := toNat_ofNat (by omega)
  have hmod : (k + 128) % 64 = k := by omega
  have hin : low ≤ UInt8.ofNat (k + 128) ∧ UInt8.ofNat (k + 128) ≤ high := by
    rw [UInt8.le_iff_toNat_le, UInt8.le_iff_toNat_le, hn]
    exact ⟨hlow, hhigh⟩
  rw [follow, if_pos hin, hn, hmod]

theorem follow_continuation {k : Nat} (hk : k < 64) (intervals : List (UInt8 × UInt8))
    (value : Nat) (rest : Bytes) :
  follow (continuation :: intervals) value (UInt8.ofNat (k + 128) :: rest) =
    follow intervals (value * 64 + k) rest
  := by
  apply follow_cons hk
  · exact Nat.le_add_left 128 k
  · change k + 128 ≤ 191
    omega

/-! ### Characters and texts -/

theorem chars_cons (b : UInt8) (rest : Bytes) :
  chars (b :: rest) = (next b rest).1 :: chars (next b rest).2
  := by
  rw [chars]

/-- The bytes of a character are read as this character. -/
theorem chars_utf8EncodeChar (c : Char) (rest : Bytes) :
  chars (String.utf8EncodeChar c ++ rest) = some c :: chars rest
  := by
  have hvalid : c.val.toNat < 0xD800 ∨ 0xDFFF < c.val.toNat ∧ c.val.toNat < 0x110000 := c.valid
  have hchar : Char.ofNat c.val.toNat = c := Char.ofNat_toNat c
  rw [String.utf8EncodeChar]
  generalize c.val.toNat = v at hvalid hchar ⊢
  split
  · next hv =>
    rw [List.singleton_append, chars_cons, next, lead?_one hv]
    dsimp only [follow]
    rw [Option.map_some, hchar]
  split
  · next _ hv =>
    have hdiv : v / 64 % 32 = v / 64 := by omega
    have hvalue : (v / 64 % 32 + 192 - 192) * 64 + v % 64 = v := by omega
    rw [List.cons_append, List.singleton_append, chars_cons, next,
      lead?_two (by omega) (by omega)]
    dsimp only
    rw [follow_continuation (by omega), hvalue, follow, Option.map_some, hchar]
  split
  · next _ _ hv =>
    have hvalue : ((v / 4096 % 16 + 224 - 224) * 64 + v / 64 % 64) * 64 + v % 64 = v := by omega
    obtain ⟨low, high, hlead, hlow, hhigh⟩ :=
      lead?_three (n := v / 4096 % 16 + 224) (by omega) (by omega)
    rw [List.cons_append, List.cons_append, List.singleton_append, chars_cons, next, hlead]
    dsimp only
    rw [follow_cons (by omega) (by omega) (by omega), follow_continuation (by omega), hvalue,
      follow, Option.map_some, hchar]
  · next _ _ hv =>
    have hvalue : (((v / 262144 % 8 + 240 - 240) * 64 + v / 4096 % 64) * 64 + v / 64 % 64) * 64 +
        v % 64 = v := by omega
    obtain ⟨low, high, hlead, hlow, hhigh⟩ :=
      lead?_four (n := v / 262144 % 8 + 240) (by omega) (by omega)
    rw [List.cons_append, List.cons_append, List.cons_append, List.singleton_append, chars_cons,
      next, hlead]
    dsimp only
    rw [follow_cons (by omega) (by omega) (by omega), follow_continuation (by omega),
      follow_continuation (by omega), hvalue, follow, Option.map_some, hchar]

/-- The bytes of a text are cut into its characters, without a defect. -/
theorem chars_encode (s : String) :
  chars (encode s) = s.toList.map some
  := by
  rw [encode]
  induction s.toList with
  | nil => rw [List.flatMap_nil, chars, List.map_nil]
  | cons c cs ih => rw [List.flatMap_cons, chars_utf8EncodeChar, ih, List.map_cons]

/-! ### Texts in another case -/

/-- Characters that are those of a text up to case have no defect among them. -/
theorem exists_chars_of_case {cs : List (Option Char)} {text : List Char}
    (h : cs.map (Option.map Char.toLower) = (text.map some).map (Option.map Char.toLower)) :
  ∃ text' : List Char, cs = text'.map some ∧ text'.map Char.toLower = text.map Char.toLower
  := by
  induction cs generalizing text with
  | nil =>
      obtain rfl : text = [] := by simpa using h.symm
      exact ⟨[], rfl, rfl⟩
  | cons c cs ih =>
      cases text with
      | nil => cases h
      | cons d text =>
          obtain ⟨hc, hcs⟩ := List.cons.inj h
          obtain ⟨d', rfl, hd⟩ := Option.map_eq_some_iff.mp hc
          obtain ⟨text', rfl, htext⟩ := ih hcs
          use d' :: text', rfl
          rw [List.map_cons, List.map_cons, hd, htext]

/-- Bytes that are those of a text up to case are those of a text with the same letters. -/
theorem exists_text_of_case {s : Bytes} {text : String}
    (h : s.map Byte.lower = (encode text).map Byte.lower) :
  ∃ text' : String, decode? s = some text' ∧ decode s = text' ∧ text'.toLower = text.toLower
  := by
  have hcase := chars_of_case h
  rw [chars_encode] at hcase
  obtain ⟨cs, hcs, hlower⟩ := exists_chars_of_case hcase
  have hall : (cs.map some).mapM id = some (cs.map id) := by
    rw [List.mapM_map]
    exact List.mapM_pure (m := Option)
  rw [List.map_id] at hall
  refine ⟨String.ofList cs, ?_, ?_, ?_⟩
  · rw [decode?, hcs, hall, Option.map_some]
  · rw [decode, hcs, List.map_map]
    congr 1
    apply List.map_id'
  · apply String.toList_injective
    rw [toList_toLower, toList_toLower, String.toList_ofList, hlower]

end Respell.Utf8
