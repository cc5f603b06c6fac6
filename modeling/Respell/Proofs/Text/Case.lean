import Mathlib.Tactic.Common
import Respell.Text.Casing
import Respell.Text.Utf8

/-!
# Texts in two cases

Two texts that differ in the case of their ASCII letters only are cut into characters at
the same places.  An ASCII letter is a character of its own, whichever case it has, and no
other byte has another case.
-/

namespace Respell

namespace Byte

theorem lower_lower (b : UInt8) :
  lower (lower b) = lower b
  := by
  grind [lower]

/-- The bytes that are the same as a given one without regard to case are the byte itself
and its two cases. -/
theorem lower_eq_lower_iff {b c : UInt8} :
  lower b = lower c ↔ b = c ∨ b = lower c ∨ b = upper c
  := by
  grind [lower, upper]

theorem lower_le_iff (b : UInt8) :
  lower b ≤ 0x7F ↔ b ≤ 0x7F
  := by
  grind [lower]

/-- A byte that is not ASCII is the same as no other byte. -/
theorem eq_of_lower_eq {b c : UInt8} (h : lower b = lower c) (hb : ¬ b ≤ 0x7F) :
  b = c
  := by
  grind [lower]

/-- The small letter of an ASCII character is that of its byte. -/
theorem toLower_ofNat {b : UInt8} (hb : b ≤ 0x7F) :
  (Char.ofNat b.toNat).toLower = Char.ofNat (lower b).toNat
  := by
  have hall : ∀ n < 128,
      (Char.ofNat n).toLower = Char.ofNat (lower (UInt8.ofNat n)).toNat := by
    decide
  have hlt : b.toNat < 128 := Nat.lt_succ_of_le (UInt8.le_iff_toNat_le.mp hb)
  have h := hall b.toNat hlt
  rwa [UInt8.ofNat_toNat] at h

end Byte

namespace Utf8

/-- No byte that may follow a lead byte is an ASCII byte. -/
theorem not_ascii_of_following (b : UInt8) :
  ∀ lead ∈ lead? b, ∀ i ∈ lead.following, 0x80 ≤ i.1
  := by
  unfold lead?
  repeat' split
  all_goals
    simp only [Option.mem_def, Option.some.injEq, forall_eq', List.forall_mem_cons, continuation,
      reduceCtorEq, false_imp_iff, implies_true, List.not_mem_nil]
  all_goals
    decide

/-- Where no ASCII bytes are read, it does not matter in which case they are. -/
theorem follow_of_case {intervals : List (UInt8 × UInt8)} (h : ∀ i ∈ intervals, 0x80 ≤ i.1)
    (value : Nat) {s t : Bytes} (hst : s.map Byte.lower = t.map Byte.lower) :
  (follow intervals value s).1 = (follow intervals value t).1 ∧
    (follow intervals value s).2.map Byte.lower = (follow intervals value t).2.map Byte.lower
  := by
  induction intervals generalizing value s t with
  | nil => exact ⟨rfl, hst⟩
  | cons i is ih =>
      obtain ⟨low, high⟩ := i
      have hlow : 0x80 ≤ low := h (low, high) List.mem_cons_self
      cases s with
      | nil =>
          rw [List.map_eq_nil_iff.mp hst.symm]
          exact ⟨rfl, rfl⟩
      | cons b s =>
          obtain ⟨c, t, rfl, hbc, hst'⟩ := List.map_eq_cons_iff.mp hst.symm
          by_cases hb : b ≤ 0x7F
          · have hc : c ≤ 0x7F := by
              rw [← Byte.lower_le_iff, hbc, Byte.lower_le_iff]
              apply hb
            have hbout : ¬ (low ≤ b ∧ b ≤ high) := by grind
            have hcout : ¬ (low ≤ c ∧ c ≤ high) := by grind
            rw [follow, follow, if_neg hbout, if_neg hcout]
            exact ⟨rfl, hst⟩
          · obtain rfl := Byte.eq_of_lower_eq hbc.symm hb
            rw [follow, follow]
            split
            · apply ih (fun i hi => h i (List.mem_cons_of_mem _ hi)) _ hst'.symm
            · exact ⟨rfl, hst⟩

theorem next_of_case {b c : UInt8} {s t : Bytes} (hbc : Byte.lower b = Byte.lower c)
    (hst : s.map Byte.lower = t.map Byte.lower) :
  (next b s).1.map Char.toLower = (next c t).1.map Char.toLower ∧
    (next b s).2.map Byte.lower = (next c t).2.map Byte.lower
  := by
  by_cases hb : b ≤ 0x7F
  · have hc : c ≤ 0x7F := by rwa [← Byte.lower_le_iff, ← hbc, Byte.lower_le_iff]
    have hascii : ∀ {b : UInt8} {s : Bytes}, b ≤ 0x7F → next b s = (some (.ofNat b.toNat), s) := by
      intro b s hb
      rw [next, lead?, if_pos hb]
      rfl
    rw [hascii hb, hascii hc]
    use by
      rw [Option.map_some, Option.map_some, Byte.toLower_ofNat hb, Byte.toLower_ofNat hc, hbc]
  · obtain rfl := Byte.eq_of_lower_eq hbc hb
    rw [next, next]
    cases hlead : lead? b with
    | none => exact ⟨rfl, hst⟩
    | some lead =>
        obtain ⟨hvalue, hrest⟩ :=
          follow_of_case (not_ascii_of_following b lead hlead) lead.bits hst
        dsimp only
        rw [hvalue]
        exact ⟨rfl, hrest⟩

/-- Texts that differ in case only have characters and defects in the same places, and the
characters differ in case only. -/
theorem chars_of_case {s t : Bytes} (hst : s.map Byte.lower = t.map Byte.lower) :
  (chars s).map (Option.map Char.toLower) = (chars t).map (Option.map Char.toLower)
  := by
  fun_induction chars s generalizing t with
  | case1 => rw [List.map_eq_nil_iff.mp hst.symm, chars]
  | case2 b s ih =>
      obtain ⟨c, t, rfl, hbc, hst'⟩ := List.map_eq_cons_iff.mp hst.symm
      obtain ⟨hnext, hrest⟩ := next_of_case hbc.symm hst'.symm
      rw [chars, List.map_cons, List.map_cons, hnext, ih hrest]

theorem toList_toLower (s : String) :
  s.toLower.toList = s.toList.map Char.toLower
  := String.toList_map

/-- Texts that differ in case only are shown in the same way up to case. -/
theorem toLower_decode_of_case {s t : Bytes} (hst : s.map Byte.lower = t.map Byte.lower) :
  (decode s).toLower = (decode t).toLower
  := by
  have hshow : ∀ s : Bytes, (decode s).toLower =
      String.ofList (((chars s).map (Option.map Char.toLower)).map
        (Option.getD · '\uFFFD')) := by
    intro s
    apply String.toList_injective
    rw [toList_toLower, decode, String.toList_ofList, String.toList_ofList, List.map_map,
      List.map_map]
    apply List.map_congr_left
    intro c _
    cases c with
    | none => rfl
    | some c => rfl
  rw [hshow, hshow, chars_of_case hst]

end Utf8

end Respell
