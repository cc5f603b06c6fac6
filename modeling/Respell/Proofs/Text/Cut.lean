import Respell.Proofs.Text.Utf8

/-!
# Texts cut at ASCII bytes

An ASCII byte is a character by itself, and no other character has one among its bytes.  So the
bytes of a text may be cut at any of its ASCII bytes, and both parts are the bytes of a text again.
A list of bytes is that of a text if it is read without a defect, and then the text is what is read.
-/

namespace Respell.Utf8

/-- The bytes are those of a text. -/
def IsText (s : Bytes) : Prop := ∃ text : String, encode text = s

theorem encode_ofList (cs : List Char) :
  encode (.ofList cs) = cs.flatMap String.utf8EncodeChar
  := by
  rw [encode, String.toList_ofList]

theorem isText_iff {s : Bytes} :
  IsText s ↔ ∃ cs : List Char, cs.flatMap String.utf8EncodeChar = s
  := by
  constructor
  · exact fun ⟨text, h⟩ => ⟨text.toList, h⟩
  · exact fun ⟨cs, h⟩ => ⟨.ofList cs, (encode_ofList cs).trans h⟩

theorem isText_nil :
  IsText []
  := ⟨"", rfl⟩

theorem IsText.append {s t : Bytes} (hs : IsText s) (ht : IsText t) :
  IsText (s ++ t)
  := by
  obtain ⟨cs, rfl⟩ := isText_iff.mp hs
  obtain ⟨ds, rfl⟩ := isText_iff.mp ht
  exact isText_iff.mpr ⟨cs ++ ds, List.flatMap_append⟩

/-! ### Characters of some bytes -/

/-- The character with a code point that is not one of a surrogate. -/
theorem toNat_val_ofNat {n : Nat} (h : n.isValidChar) :
  (Char.ofNat n).val.toNat = n
  := by
  rw [Char.ofNat, dif_pos h]
  rfl

theorem utf8EncodeChar_one {b : UInt8} (hb : b.toNat ≤ 127) :
  String.utf8EncodeChar (.ofNat b.toNat) = [b]
  := by
  rw [String.utf8EncodeChar, toNat_val_ofNat (.inl (by omega)), if_pos hb, UInt8.ofNat_toNat]

section

variable {n : Nat} {b c d e : UInt8}

/-- Two bytes that together have the bits of a code point are its character. -/
theorem utf8EncodeChar_two (hb : b.toNat = n / 64 + 192) (hc : c.toNat = n % 64 + 128)
    (hlow : 128 ≤ n) (hhigh : n < 2048) :
  String.utf8EncodeChar (.ofNat n) = [b, c]
  := by
  rw [String.utf8EncodeChar, toNat_val_ofNat (.inl (by omega)), if_neg (by omega),
    if_pos (by omega), Nat.mod_eq_of_lt (by omega), ← hb, ← hc, UInt8.ofNat_toNat,
    UInt8.ofNat_toNat]

theorem utf8EncodeChar_three (hb : b.toNat = n / 4096 + 224) (hc : c.toNat = n / 64 % 64 + 128)
    (hd : d.toNat = n % 64 + 128) (hlow : 2048 ≤ n) (hhigh : n < 65536) (hvalid : n.isValidChar) :
  String.utf8EncodeChar (.ofNat n) = [b, c, d]
  := by
  rw [String.utf8EncodeChar, toNat_val_ofNat hvalid, if_neg (by omega), if_neg (by omega),
    if_pos (by omega), Nat.mod_eq_of_lt (by omega), ← hb, ← hc, ← hd, UInt8.ofNat_toNat,
    UInt8.ofNat_toNat, UInt8.ofNat_toNat]

theorem utf8EncodeChar_four (hb : b.toNat = n / 262144 + 240)
    (hc : c.toNat = n / 4096 % 64 + 128) (hd : d.toNat = n / 64 % 64 + 128)
    (he : e.toNat = n % 64 + 128) (hlow : 65536 ≤ n) (hhigh : n < 1114112) :
  String.utf8EncodeChar (.ofNat n) = [b, c, d, e]
  := by
  rw [String.utf8EncodeChar, toNat_val_ofNat (.inr ⟨by omega, hhigh⟩), if_neg (by omega),
    if_neg (by omega), if_neg (by omega), Nat.mod_eq_of_lt (by omega), ← hb, ← hc, ← hd, ← he,
    UInt8.ofNat_toNat, UInt8.ofNat_toNat, UInt8.ofNat_toNat, UInt8.ofNat_toNat]

end

/-! ### ASCII bytes -/

/-- A character is one ASCII byte, or it has no ASCII byte. -/
theorem utf8EncodeChar_cases (c : Char) :
  (∃ b, String.utf8EncodeChar c = [b]) ∨ ∀ b ∈ String.utf8EncodeChar c, 0x80 ≤ b
  := by
  have habove : ∀ {n : Nat}, 128 ≤ n → n < 256 → (0x80 : UInt8) ≤ .ofNat n := by
    intro n hlow hhigh
    rw [UInt8.le_iff_toNat_le, toNat_ofNat hhigh]
    exact hlow
  rw [String.utf8EncodeChar]
  split
  · exact .inl ⟨_, rfl⟩
  split
  · right
    simp only [List.forall_mem_cons]
    exact ⟨habove (by omega) (by omega), habove (by omega) (by omega), List.forall_mem_nil _⟩
  split
  · right
    simp only [List.forall_mem_cons]
    exact ⟨habove (by omega) (by omega), habove (by omega) (by omega),
      habove (by omega) (by omega), List.forall_mem_nil _⟩
  · right
    simp only [List.forall_mem_cons]
    exact ⟨habove (by omega) (by omega), habove (by omega) (by omega),
      habove (by omega) (by omega), habove (by omega) (by omega), List.forall_mem_nil _⟩

/-- A character with an ASCII byte is this byte. -/
theorem utf8EncodeChar_of_mem {c : Char} {b : UInt8} (hb : b < 0x80)
    (h : b ∈ String.utf8EncodeChar c) :
  String.utf8EncodeChar c = [b]
  := by
  rcases utf8EncodeChar_cases c with ⟨d, hd⟩ | habove
  · rw [hd, List.mem_singleton] at h
    rw [hd, h]
  · exact absurd (habove b h) (UInt8.not_le.mpr hb)

/-- The bytes of a character behind the first one are no ASCII bytes. -/
theorem exists_cons_utf8EncodeChar (c : Char) :
  ∃ b bs, String.utf8EncodeChar c = b :: bs ∧ ∀ x ∈ bs, 0x80 ≤ x
  := by
  rcases utf8EncodeChar_cases c with ⟨b, hc⟩ | habove
  · exact ⟨b, [], hc, List.forall_mem_nil _⟩
  · obtain ⟨b, bs, hc⟩ := List.exists_cons_of_ne_nil (String.utf8EncodeChar_ne_nil (c := c))
    rw [hc] at habove
    exact ⟨b, bs, hc, (List.forall_mem_cons.mp habove).2⟩

section Ascii

variable {m c : Char} (hm : m.val < 0x80)

include hm

theorem toUInt8_lt_of_ascii :
  m.toUInt8 < 0x80
  := by
  have hlt : m.val.toNat < 128 := UInt32.lt_iff_toNat_lt.mp hm
  rw [UInt8.lt_iff_toNat_lt, Char.toUInt8, UInt32.toNat_toUInt8]
  exact Nat.lt_of_le_of_lt (Nat.mod_le _ _) hlt

/-- An ASCII character is one byte. -/
theorem utf8EncodeChar_of_ascii :
  String.utf8EncodeChar m = [m.toUInt8]
  := by
  have hlt : m.val.toNat < 128 := UInt32.lt_iff_toNat_lt.mp hm
  rw [String.utf8EncodeChar, if_pos (Nat.le_of_lt_succ hlt)]
  rfl

/-- A character that is the byte of an ASCII character is this one. -/
theorem eq_of_utf8EncodeChar_eq (h : String.utf8EncodeChar c = [m.toUInt8]) :
  c = m
  := by
  have hchars := congrArg chars (h.trans (utf8EncodeChar_of_ascii hm).symm)
  rw [← List.append_nil (String.utf8EncodeChar c), ← List.append_nil (String.utf8EncodeChar m),
    chars_utf8EncodeChar, chars_utf8EncodeChar] at hchars
  exact Option.some.inj (List.cons.inj hchars).1

theorem not_mem_utf8EncodeChar (hc : c ≠ m) :
  m.toUInt8 ∉ String.utf8EncodeChar c
  := fun h => hc (eq_of_utf8EncodeChar_eq hm (utf8EncodeChar_of_mem (toUInt8_lt_of_ascii hm) h))

theorem not_mem_of_above {bs : Bytes} (hbs : ∀ b ∈ bs, 0x80 ≤ b) :
  m.toUInt8 ∉ bs
  := fun h => absurd (hbs _ h) (UInt8.not_le.mpr (toUInt8_lt_of_ascii hm))

end Ascii

/-- Where there is an ASCII byte among the bytes of a text, there is this character in the text. -/
theorem exists_of_flatMap_eq_append {cs : List Char} {s t : Bytes} {b : UInt8} (hb : b < 0x80)
    (h : cs.flatMap String.utf8EncodeChar = s ++ b :: t) :
  ∃ before c after, cs = before ++ c :: after ∧ before.flatMap String.utf8EncodeChar = s ∧
    String.utf8EncodeChar c = [b] ∧ after.flatMap String.utf8EncodeChar = t
  := by
  induction cs generalizing s with
  | nil =>
      rw [List.flatMap_nil] at h
      exact absurd h.symm (List.append_ne_nil_of_right_ne_nil s (List.cons_ne_nil b t))
  | cons c cs ih =>
      rw [List.flatMap_cons] at h
      -- The byte stands behind the first character or is among its bytes.
      rcases List.append_eq_append_iff.mp h with ⟨s', rfl, hcs⟩ | ⟨front, hc, hfront⟩
      · obtain ⟨before, d, after, rfl, rfl, hd, hafter⟩ := ih hcs
        exact ⟨c :: before, d, after, rfl, List.flatMap_cons, hd, hafter⟩
      · cases front with
        | nil =>
            obtain ⟨before, d, after, rfl, hbefore, hd, hafter⟩ := ih (s := []) hfront.symm
            refine ⟨c :: before, d, after, rfl, ?_, hd, hafter⟩
            rw [List.flatMap_cons, hbefore, hc, List.append_nil, List.append_nil]
        | cons d front =>
            obtain ⟨rfl, ht⟩ := List.cons.inj hfront
            have hmem : b ∈ String.utf8EncodeChar c := by
              rw [hc]
              apply List.mem_append_right s List.mem_cons_self
            have hone := utf8EncodeChar_of_mem hb hmem
            rw [hone] at hc
            obtain ⟨rfl, hnil⟩ | ⟨-, hnil⟩ := List.append_eq_singleton_iff.mp hc.symm
            · obtain rfl := (List.cons.inj hnil).2
              exact ⟨[], c, cs, rfl, rfl, hone, ht.symm⟩
            · cases hnil

/-- A text that is cut at an ASCII byte is two texts. -/
theorem isText_append_cons_iff {s t : Bytes} {b : UInt8} (hb : b < 0x80) :
  IsText (s ++ b :: t) ↔ IsText s ∧ IsText t
  := by
  constructor
  · intro h
    obtain ⟨cs, hcs⟩ := isText_iff.mp h
    obtain ⟨before, c, after, -, hbefore, -, hafter⟩ := exists_of_flatMap_eq_append hb hcs
    exact ⟨isText_iff.mpr ⟨before, hbefore⟩, isText_iff.mpr ⟨after, hafter⟩⟩
  · rintro ⟨hs, ht⟩
    have hbyte : IsText [b] := by
      refine isText_iff.mpr ⟨[Char.ofNat b.toNat], ?_⟩
      have hlt : b.toNat < 128 := UInt8.lt_iff_toNat_lt.mp hb
      rw [List.flatMap_cons, List.flatMap_nil, List.append_nil,
        utf8EncodeChar_one (by omega)]
    have happend := hs.append (hbyte.append ht)
    rwa [List.singleton_append] at happend

/-- ASCII bytes may be put behind a text, and behind nothing else that it becomes one. -/
theorem isText_append_iff_of_ascii {s t : Bytes} (ht : ∀ b ∈ t, b < 0x80) :
  IsText (s ++ t) ↔ IsText s
  := by
  induction t generalizing s with
  | nil => rw [List.append_nil]
  | cons b t ih =>
      obtain ⟨hb, ht⟩ := List.forall_mem_cons.mp ht
      have htext : IsText t := (ih (s := []) ht).mpr isText_nil
      rw [isText_append_cons_iff hb, and_iff_left htext]

/-! ### Texts and defects -/

/-- The bits of a first byte, and the intervals of the bytes behind it. -/
theorem lead?_cases {b : UInt8} {lead : Lead} (h : lead? b = some lead) :
  (lead.following = [] ∧ b.toNat = lead.bits ∧ lead.bits ≤ 127) ∨
    (lead.following = [continuation] ∧ b.toNat = lead.bits + 192 ∧
      2 ≤ lead.bits ∧ lead.bits ≤ 31) ∨
    (∃ low high, lead.following = [(low, high), continuation] ∧ b.toNat = lead.bits + 224 ∧
      lead.bits ≤ 15 ∧ 128 ≤ low.toNat ∧ high.toNat ≤ 191 ∧
      (lead.bits = 0 → 160 ≤ low.toNat) ∧ (lead.bits = 13 → high.toNat ≤ 159)) ∨
    (∃ low high, lead.following = [(low, high), continuation, continuation] ∧
      b.toNat = lead.bits + 240 ∧ lead.bits ≤ 4 ∧ 128 ≤ low.toNat ∧ high.toNat ≤ 191 ∧
      (lead.bits = 0 → 144 ≤ low.toNat) ∧ (lead.bits = 4 → high.toNat ≤ 143))
  := by
  unfold lead? at h
  simp only [UInt8.le_iff_toNat_le, UInt8.lt_iff_toNat_lt, ← UInt8.toNat_inj,
    UInt8.reduceToNat] at h
  split at h
  · next hb =>
    cases h
    exact .inl ⟨rfl, rfl, hb⟩
  split at h
  · cases h
  split at h
  · obtain rfl := Option.some.inj h
    refine .inr (.inl ⟨rfl, ?_⟩)
    dsimp only
    omega
  split at h
  · obtain rfl := Option.some.inj h
    refine .inr (.inr (.inl ⟨_, _, rfl, ?_⟩))
    dsimp only [UInt8.reduceToNat]
    omega
  split at h
  · obtain rfl := Option.some.inj h
    refine .inr (.inr (.inl ⟨_, _, rfl, ?_⟩))
    dsimp only [UInt8.reduceToNat]
    omega
  split at h
  · obtain rfl := Option.some.inj h
    refine .inr (.inr (.inl ⟨_, _, rfl, ?_⟩))
    dsimp only [UInt8.reduceToNat]
    omega
  split at h
  · obtain rfl := Option.some.inj h
    refine .inr (.inr (.inr ⟨_, _, rfl, ?_⟩))
    dsimp only [UInt8.reduceToNat]
    omega
  split at h
  · obtain rfl := Option.some.inj h
    refine .inr (.inr (.inr ⟨_, _, rfl, ?_⟩))
    dsimp only [UInt8.reduceToNat]
    omega
  split at h
  · obtain rfl := Option.some.inj h
    refine .inr (.inr (.inr ⟨_, _, rfl, ?_⟩))
    dsimp only [UInt8.reduceToNat]
    omega
  · cases h

/-- A byte that was read behind the first byte of a character lies in its interval. -/
theorem exists_of_follow {low high : UInt8} {intervals : List (UInt8 × UInt8)} {value n : Nat}
    {s rest : Bytes} (h : follow ((low, high) :: intervals) value s = (some n, rest)) :
  ∃ b s', s = b :: s' ∧ low.toNat ≤ b.toNat ∧ b.toNat ≤ high.toNat ∧
    follow intervals (value * 64 + b.toNat % 64) s' = (some n, rest)
  := by
  cases s with
  | nil => cases h
  | cons b s =>
      rw [follow] at h
      split at h
      · next hb => exact ⟨b, s, rfl, UInt8.le_iff_toNat_le.mp hb.1, UInt8.le_iff_toNat_le.mp hb.2, h⟩
      · cases h

theorem exists_of_follow_continuation {intervals : List (UInt8 × UInt8)} {value n : Nat}
    {s rest : Bytes} (h : follow (continuation :: intervals) value s = (some n, rest)) :
  ∃ b s', s = b :: s' ∧ 128 ≤ b.toNat ∧ b.toNat ≤ 191 ∧
    follow intervals (value * 64 + b.toNat % 64) s' = (some n, rest)
  := exists_of_follow h

theorem eq_of_follow_nil {value n : Nat} {s rest : Bytes}
    (h : follow [] value s = (some n, rest)) :
  n = value ∧ rest = s
  := by
  rw [follow] at h
  cases h
  exact ⟨rfl, rfl⟩

/-- A character that is read is the one that has these bytes.  The narrowed intervals keep out code
points that have fewer bytes, those of surrogates and those beyond the last one. -/
theorem eq_utf8EncodeChar_of_next {b : UInt8} {s rest : Bytes} {c : Char}
    (h : next b s = (some c, rest)) :
  b :: s = String.utf8EncodeChar c ++ rest
  := by
  rw [next] at h
  cases hlead : lead? b with
  | none =>
      rw [hlead] at h
      cases h
  | some lead =>
      rw [hlead] at h
      obtain ⟨hc, hrest⟩ := Prod.mk.inj h
      obtain ⟨n, hn, rfl⟩ := Option.map_eq_some_iff.mp hc
      have hfollow : follow lead.following lead.bits s = (some n, rest) := Prod.ext hn hrest
      rcases lead?_cases hlead with ⟨hfollowing, hb, hbits⟩ | ⟨hfollowing, hb, hlow, hhigh⟩ |
        ⟨low, high, hfollowing, hb, hbits, hlow, hhigh, hfirst, hsurrogate⟩ |
        ⟨low, high, hfollowing, hb, hbits, hlow, hhigh, hfirst, hlast⟩
      · rw [hfollowing] at hfollow
        obtain ⟨rfl, rfl⟩ := eq_of_follow_nil hfollow
        rw [← hb, utf8EncodeChar_one (hb ▸ hbits)]
        rfl
      · rw [hfollowing] at hfollow
        obtain ⟨c, s, rfl, hc, hc', hfollow⟩ := exists_of_follow_continuation hfollow
        obtain ⟨hn, rfl⟩ := eq_of_follow_nil hfollow
        have hchar : String.utf8EncodeChar (.ofNat n) = [b, c] :=
          utf8EncodeChar_two (by omega) (by omega) (by omega) (by omega)
        rw [hchar]
        rfl
      · rw [hfollowing] at hfollow
        obtain ⟨c, s, rfl, hc, hc', hfollow⟩ := exists_of_follow hfollow
        obtain ⟨d, s, rfl, hd, hd', hfollow⟩ := exists_of_follow_continuation hfollow
        obtain ⟨hn, rfl⟩ := eq_of_follow_nil hfollow
        have hvalid : n.isValidChar := by
          unfold Nat.isValidChar
          omega
        have hchar : String.utf8EncodeChar (.ofNat n) = [b, c, d] :=
          utf8EncodeChar_three (by omega) (by omega) (by omega) (by omega) (by omega) hvalid
        rw [hchar]
        rfl
      · rw [hfollowing] at hfollow
        obtain ⟨c, s, rfl, hc, hc', hfollow⟩ := exists_of_follow hfollow
        obtain ⟨d, s, rfl, hd, hd', hfollow⟩ := exists_of_follow_continuation hfollow
        obtain ⟨e, s, rfl, he, he', hfollow⟩ := exists_of_follow_continuation hfollow
        obtain ⟨hn, rfl⟩ := eq_of_follow_nil hfollow
        have hchar : String.utf8EncodeChar (.ofNat n) = [b, c, d, e] :=
          utf8EncodeChar_four (by omega) (by omega) (by omega) (by omega) (by omega) (by omega)
        rw [hchar]
        rfl

/-- Bytes without a defect are those of the characters that are read. -/
theorem flatMap_of_chars {s : Bytes} {cs : List Char} (h : chars s = cs.map some) :
  cs.flatMap String.utf8EncodeChar = s
  := by
  fun_induction chars s generalizing cs with
  | case1 =>
      obtain rfl := List.map_eq_nil_iff.mp h.symm
      rfl
  | case2 b rest ih =>
      obtain ⟨c, cs', rfl, hc, hcs⟩ := List.map_eq_cons_iff.mp h.symm
      rw [List.flatMap_cons, ih hcs.symm]
      exact (eq_utf8EncodeChar_of_next (Prod.ext hc.symm rfl)).symm

theorem mapM_id_eq_some_iff {l : List (Option Char)} {cs : List Char} :
  l.mapM id = some cs ↔ l = cs.map some
  := by
  constructor
  · intro h
    induction l generalizing cs with
    | nil =>
        obtain rfl := Option.some.inj h
        rfl
    | cons a l ih =>
        rw [List.mapM_cons] at h
        obtain ⟨c, hc, h⟩ := Option.bind_eq_some_iff.mp h
        obtain ⟨ds, hds, h⟩ := Option.bind_eq_some_iff.mp h
        obtain rfl := Option.some.inj h
        rw [ih hds, List.map_cons]
        exact congrArg (· :: ds.map some) hc
  · rintro rfl
    have hall : (cs.map some).mapM id = some (cs.map id) := by
      rw [List.mapM_map]
      exact List.mapM_pure (m := Option)
    rwa [List.map_id] at hall

/-- The text that is read without a defect is the one with these bytes. -/
theorem decode?_eq_some_iff {s : Bytes} {text : String} :
  decode? s = some text ↔ encode text = s
  := by
  constructor
  · intro h
    obtain ⟨cs, hcs, rfl⟩ := Option.map_eq_some_iff.mp h
    rw [encode_ofList]
    apply flatMap_of_chars (mapM_id_eq_some_iff.mp hcs)
  · rintro rfl
    rw [decode?, chars_encode, mapM_id_eq_some_iff.mpr rfl, Option.map_some, String.ofList_toList]

theorem isText_iff_isSome {s : Bytes} :
  IsText s ↔ (decode? s).isSome = true
  := by
  rw [Option.isSome_iff_exists]
  simp only [decode?_eq_some_iff]
  rfl

instance (s : Bytes) : Decidable (IsText s) := decidable_of_iff _ isText_iff_isSome.symm

/-- A text is shown as it is. -/
theorem decode_encode (text : String) :
  decode (encode text) = text
  := by
  rw [decode, chars_encode, List.map_map, Function.comp_def]
  dsimp only [Option.getD_some]
  rw [List.map_id', String.ofList_toList]

end Respell.Utf8
