import Respell.Text.Byte

/-!
# UTF-8

`encode` gives the bytes of a text.  `chars` cuts any bytes into characters and defects:
a defect is a longest run of bytes that begins a character without completing it, or one
byte that begins none.  `decode` shows each defect as U+FFFD, and `decode?` refuses bytes
with a defect.
-/

namespace Respell.Utf8

/-- The UTF-8 bytes of a text. -/
def encode (s : String) : Bytes :=
  s.toList.flatMap String.utf8EncodeChar

/-- What the first byte of a character says: the bits it contributes, and for each byte
that has to follow the interval in which it lies. -/
structure Lead where
  bits : Nat
  following : List (UInt8 × UInt8)
  deriving DecidableEq, Repr

/-- The interval of an unrestricted continuation byte. -/
def continuation : UInt8 × UInt8 := (0x80, 0xBF)

/-- The role of a byte as the first byte of a character, if it can be one.  The narrowed
intervals exclude overlong forms, surrogates and values above U+10FFFF. -/
def lead? (b : UInt8) : Option Lead :=
  if b ≤ 0x7F then some ⟨b.toNat, []⟩
  else if b < 0xC2 then none
  else if b ≤ 0xDF then some ⟨b.toNat - 0xC0, [continuation]⟩
  else if b = 0xE0 then some ⟨0, [(0xA0, 0xBF), continuation]⟩
  else if b = 0xED then some ⟨0xD, [(0x80, 0x9F), continuation]⟩
  else if b ≤ 0xEF then some ⟨b.toNat - 0xE0, [continuation, continuation]⟩
  else if b = 0xF0 then some ⟨0, [(0x90, 0xBF), continuation, continuation]⟩
  else if b ≤ 0xF3 then some ⟨b.toNat - 0xF0, [continuation, continuation, continuation]⟩
  else if b = 0xF4 then some ⟨4, [(0x80, 0x8F), continuation, continuation]⟩
  else none

/-- Reads one byte for each interval, adding six bits to the value with each.  The value
is absent when a byte is missing or lies outside its interval; what was read before it
stays read. -/
def follow : List (UInt8 × UInt8) → Nat → Bytes → Option Nat × Bytes
  | [], value, rest => (some value, rest)
  | _ :: _, _, [] => (none, [])
  | (low, high) :: intervals, value, b :: rest =>
    if low ≤ b ∧ b ≤ high then follow intervals (value * 64 + b.toNat % 64) rest
    else (none, b :: rest)

theorem length_follow_le (intervals : List (UInt8 × UInt8)) (value : Nat) (s : Bytes) :
  (follow intervals value s).2.length ≤ s.length
  := by
  fun_induction follow intervals value s with
  | case1 => apply Nat.le_refl
  | case2 => apply Nat.le_refl
  | case3 low high intervals value b rest h ih => apply Nat.le_succ_of_le ih
  | case4 => apply Nat.le_refl

/-- The character that begins with the byte `b`, if there is one, and what comes after it
or after the defect in its place. -/
def next (b : UInt8) (rest : Bytes) : Option Char × Bytes :=
  match lead? b with
  | none => (none, rest)
  | some lead =>
    let (value, after) := follow lead.following lead.bits rest
    (value.map Char.ofNat, after)

theorem length_next_le (b : UInt8) (rest : Bytes) :
  (next b rest).2.length ≤ rest.length
  := by
  unfold next
  split
  · apply Nat.le_refl
  · apply length_follow_le

/-- The characters of a text in order, with `none` in the place of each defect. -/
def chars : Bytes → List (Option Char)
  | [] => []
  | b :: rest => (next b rest).1 :: chars (next b rest).2
  termination_by s => s.length
  decreasing_by apply Nat.lt_succ_of_le (length_next_le b rest)

/-- The text, with U+FFFD in the place of each defect. -/
def decode (s : Bytes) : String :=
  String.ofList ((chars s).map (Option.getD · '\uFFFD'))

/-- The text, if the bytes have no defect. -/
def decode? (s : Bytes) : Option String :=
  ((chars s).mapM id).map String.ofList

end Respell.Utf8
