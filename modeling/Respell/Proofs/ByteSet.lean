import Respell.Proofs.Text.Case
import Respell.Source.Set

/-!
# Sets that do not tell cases apart

The members of a set after each operation, said by membership alone.  As an insertion always
takes both cases of a letter, and the complement of a set that does not tell the two cases
apart does not tell them apart either, no set made by these operations does.
-/

namespace Respell

namespace ByteSet

variable (s : ByteSet) (b : UInt8)

/-! ### Members -/

@[simp]
theorem contains_empty :
  empty.contains b = false
  := BitVec.getLsbD_zero

@[simp]
theorem contains_full :
  full.contains b = true
  := by
  rw [full, contains, BitVec.getLsbD_allOnes]
  exact decide_eq_true b.toNat_lt

@[simp]
theorem contains_complement :
  s.complement.contains b = !s.contains b
  := by
  have hlt : b.toNat < 256 := b.toNat_lt
  rw [complement, contains, BitVec.getLsbD_not, decide_eq_true hlt]
  rfl

theorem contains_insert (a : UInt8) :
  (s.insert a).contains b = true ↔ s.contains b = true ∨ b = a
  := by
  have hlt : a.toNat < 256 := a.toNat_lt
  rw [insert, contains, BitVec.getLsbD_or, BitVec.getLsbD_twoPow, decide_eq_true hlt,
    Bool.true_and, Bool.or_eq_true, decide_eq_true_eq, UInt8.toNat_inj, contains, eq_comm (a := a)]

/-- A byte is inserted together with the bytes that are the same in another case. -/
theorem contains_insertBothCases (a : UInt8) :
  (s.insertBothCases a).contains b = true ↔
    s.contains b = true ∨ Byte.lower b = Byte.lower a
  := by
  rw [insertBothCases, contains_insert, contains_insert, contains_insert,
    Byte.lower_eq_lower_iff, or_assoc, or_assoc]

theorem contains_insertBetween (low high : UInt8) :
  (s.insertBetween low high).contains b = true ↔
    s.contains b = true ∨ ∃ a ∈ Byte.between low high, Byte.lower b = Byte.lower a
  := by
  rw [insertBetween]
  induction Byte.between low high generalizing s with
  | nil => simp
  | cons a as ih =>
      rw [List.foldl_cons, ih, contains_insertBothCases, or_assoc]
      simp only [List.mem_cons, exists_eq_or_imp]

/-! ### Case -/

variable {s}

/-- Of bytes that differ in case only a set has all or none. -/
def CaseBlind (s : ByteSet) : Prop :=
  ∀ b c, Byte.lower b = Byte.lower c → s.contains b = s.contains c

theorem caseBlind_empty :
  empty.CaseBlind
  := by
  intro b c _
  rw [contains_empty, contains_empty]

theorem caseBlind_full :
  full.CaseBlind
  := by
  intro b c _
  rw [contains_full, contains_full]

theorem CaseBlind.complement (h : s.CaseBlind) :
  s.complement.CaseBlind
  := by
  intro b c hbc
  rw [contains_complement, contains_complement, h b c hbc]

theorem CaseBlind.insertBothCases (h : s.CaseBlind) (a : UInt8) :
  (s.insertBothCases a).CaseBlind
  := by
  intro b c hbc
  apply Bool.eq_iff_iff.mpr
  rw [contains_insertBothCases, contains_insertBothCases, h b c hbc, hbc]

theorem CaseBlind.insertBetween (h : s.CaseBlind) (low high : UInt8) :
  (s.insertBetween low high).CaseBlind
  := by
  intro b c hbc
  apply Bool.eq_iff_iff.mpr
  rw [contains_insertBetween, contains_insertBetween, h b c hbc, hbc]

theorem CaseBlind.insertItem (h : s.CaseBlind) (item : SetItem) :
  (s.insertItem item).CaseBlind
  := by
  cases item with
  | single a => apply h.insertBothCases
  | interval one other => apply h.insertBetween

/-- A set that is written as a list of items does not tell cases apart. -/
theorem caseBlind_ofItems (negated : Bool) (items : List SetItem) :
  (ofItems negated items).CaseBlind
  := by
  have hitems : ∀ {s : ByteSet}, s.CaseBlind → (items.foldl ByteSet.insertItem s).CaseBlind := by
    induction items with
    | nil => exact id
    | cons item items ih =>
        intro s h
        apply ih (h.insertItem item)
  rw [ofItems]
  split
  · apply (hitems caseBlind_empty).complement
  · apply hitems caseBlind_empty

end ByteSet

end Respell
