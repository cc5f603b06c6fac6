import Respell.NamedClass
import Respell.Source.Scan

/-!
# Class references in a pattern

A class reference is the name of a class in angle brackets.  The name may be followed by a
colon and members, which the class is to have as well.
-/

namespace Respell.Source

/-- A class that a pattern refers to, with the members given there. -/
structure Reference where
  name : Bytes
  members : List Member
  deriving DecidableEq, Repr

/-- The members in front: escaped texts with commas between them, each followed by its
replacement if it has one.  A member without text is left out. -/
def members (total : Nat) (s : Bytes) : Scan (List Member) :=
  let text := textUntil total Mark.endsMember s
  let replaced := replacement total Mark.endsMemberReplacement text.rest
  let here := if text.value.isEmpty then [] else [Member.ofText text.value replaced.value]
  match _ : after? Mark.comma replaced.rest with
  | some rest =>
    let more := members total rest
    ⟨here ++ more.value, more.rest, text.warnings ++ replaced.warnings ++ more.warnings⟩
  | none => ⟨here, replaced.rest, text.warnings ++ replaced.warnings⟩
  termination_by s.length
  decreasing_by
    next h =>
    apply Nat.lt_of_lt_of_le (length_of_after? h)
    apply Nat.le_trans (length_replacement_le _ _ _)
    apply length_textUntil_le

theorem length_members_le (total : Nat) (s : Bytes) :
  (members total s).rest.length ≤ s.length
  := by
  fun_induction members total s with
  | case1 s text replaced here rest h more ih =>
    apply Nat.le_trans ih
    apply Nat.le_trans (Nat.le_of_lt (length_of_after? h))
    apply Nat.le_trans (length_replacement_le _ _ _)
    apply length_textUntil_le
  | case2 s text replaced here h =>
    apply Nat.le_trans (length_replacement_le _ _ _)
    apply length_textUntil_le

/-- The name and the members in front. -/
def nameAndMembers (total : Nat) (s : Bytes) : Scan Reference :=
  let name := s.takeWhile (!Mark.endsName ·)
  let rest := s.dropWhile (!Mark.endsName ·)
  match after? Mark.declare rest with
  | some rest =>
    let members := members total rest
    ⟨⟨name, members.value⟩, members.rest, members.warnings⟩
  | none => ⟨⟨name, []⟩, rest, []⟩

theorem length_nameAndMembers_le (total : Nat) (s : Bytes) :
  (nameAndMembers total s).rest.length ≤ s.length
  := by
  have hd := (List.dropWhile_suffix (l := s) (!Mark.endsName ·)).length_le
  unfold nameAndMembers
  dsimp only
  split
  · next rest h =>
    apply Nat.le_trans (length_members_le total rest)
    apply Nat.le_trans (Nat.le_of_lt (length_of_after? h)) hd
  · apply hd

/-- A class reference that was opened at the position `pos`, right in front of the given
bytes. -/
def reference (total pos : Nat) (s : Bytes) : Scan Reference :=
  let read := nameAndMembers total s
  match after? Mark.classClose read.rest with
  | some rest => ⟨read.value, rest, read.warnings⟩
  | none => ⟨read.value, read.rest, read.warnings ++ [.unclosedReference pos]⟩

theorem length_reference_le (total pos : Nat) (s : Bytes) :
  (reference total pos s).rest.length ≤ s.length
  := by
  have hn := length_nameAndMembers_le total s
  unfold reference
  dsimp only
  split
  · next rest h => apply Nat.le_trans (Nat.le_of_lt (length_of_after? h)) hn
  · apply hn

end Respell.Source
