import Mathlib.Algebra.Group.Nat.Defs
import Mathlib.Tactic.Common

/-! # Bit fields of machine words

A field is `width` bits from bit `lo` on.  Masking a word to a field, and
setting flags below an aligned address, read as arithmetic.
-/

namespace MidnightOS.Lib

/-- The mask of a field of `width` bits from bit `lo` on. -/
def fieldMask (lo width : Nat) : Nat := (2 ^ width - 1) <<< lo

theorem testBit_fieldMask (lo width i : Nat) :
    (fieldMask lo width).testBit i = (decide (lo ≤ i) && decide (i < lo + width)) := by
  simp only [fieldMask, Nat.testBit_shiftLeft, Nat.testBit_two_pow_sub_one]
  by_cases h : lo ≤ i
  · have hlt : i - lo < width ↔ i < lo + width := by omega
    simp [h, hlt]
  · simp [h]

theorem and_fieldMask (x lo width : Nat) :
    x &&& fieldMask lo width = x / 2 ^ lo % 2 ^ width * 2 ^ lo := by
  apply Nat.eq_of_testBit_eq
  intro i
  rw [Nat.testBit_and, testBit_fieldMask, Nat.testBit_mul_two_pow, Nat.testBit_mod_two_pow,
    Nat.testBit_div_two_pow]
  by_cases h : lo ≤ i
  · have hlt : i - lo < width ↔ i < lo + width := by omega
    have hi : i - lo + lo = i := by omega
    simp [h, hlt, hi, Bool.and_comm]
  · simp [h]

variable {n : Nat}

/-- Masking a word to a field. -/
theorem toNat_and_fieldMask {w mask : BitVec n} (lo width : Nat)
    (hmask : mask.toNat = fieldMask lo width) :
    (w &&& mask).toNat = w.toNat / 2 ^ lo % 2 ^ width * 2 ^ lo := by
  rw [BitVec.toNat_and, hmask, and_fieldMask]

/-- Extracting a field: shift it down, then mask. -/
theorem toNat_shift_and_fieldMask {w mask : BitVec n} {lo : Nat} (width : Nat)
    (hmask : mask.toNat = fieldMask 0 width) :
    ((w >>> lo) &&& mask).toNat = w.toNat / 2 ^ lo % 2 ^ width := by
  rw [toNat_and_fieldMask 0 width hmask, BitVec.toNat_ushiftRight, Nat.shiftRight_eq_div_pow]
  simp

/-- Setting flags in the low bits of an aligned word adds them. -/
theorem toNat_or_flags {w flags : BitVec n} (lo : Nat) (haligned : w.toNat % 2 ^ lo = 0)
    (hflags : flags.toNat < 2 ^ lo) : (w ||| flags).toNat = w.toNat + flags.toNat := by
  have hw : w.toNat = (w.toNat / 2 ^ lo) <<< lo := by
    rw [Nat.shiftLeft_eq, Nat.div_mul_cancel (Nat.dvd_of_mod_eq_zero haligned)]
  rw [BitVec.toNat_or, hw, Nat.shiftLeft_add_eq_or_of_lt hflags]

/-- The bits of a mask of `width` ones that was shifted to bit `lo`. -/
theorem getLsbD_ones (width lo : Nat) {i : Nat} (h : i < n) :
    (BitVec.ofNat n (2 ^ width - 1) <<< lo).getLsbD i =
      (decide (lo ≤ i) && decide (i < lo + width)) := by
  have inside : i - lo < n := by omega
  rw [BitVec.getLsbD_shiftLeft, BitVec.getLsbD_ofNat, Nat.testBit_two_pow_sub_one]
  by_cases above : lo ≤ i
  · have hlt : i - lo < width ↔ i < lo + width := by omega
    simp [h, inside, above, hlt, Nat.not_lt.mpr above]
  · simp [above, Nat.lt_of_not_le above]

end MidnightOS.Lib
