import Mathlib.Data.Nat.Basic
import Shigure.Lib.Word

/-!
# Words of a number and flags

A word of 32 bits with a number in its high 20 bits and flags in its low 12.
`Low` words are flags alone.
-/

namespace Shigure

def Low (f : BitVec 32) : Prop := f >>> 12 = 0#32

instance : Decidable (Low f) := inferInstanceAs (Decidable (_ = _))

def high (w : BitVec 32) : Nat := (w >>> 12).toNat

section
variable {w f g : BitVec 32} {n : Nat}

theorem high_lt (w : BitVec 32) : high w < 2 ^ 20 := by
  rw [high, BitVec.toNat_ushiftRight, Nat.shiftRight_eq_div_pow]
  omega

theorem Low.getLsbD (hf : Low f) (hi : 12 ≤ i) : f.getLsbD i = false := by
  have h := congrArg (BitVec.getLsbD · (i - 12)) hf
  simpa [BitVec.getLsbD_ushiftRight, Nat.add_sub_cancel' hi] using h

theorem Low.or (hf : Low f) (hg : Low g) : Low (f ||| g) := by
  rw [Low, BitVec.ushiftRight_or_distrib, hf, hg, BitVec.or_zero]

theorem high_or (w : BitVec 32) (hf : Low f) : high (w ||| f) = high w := by
  rw [high, BitVec.ushiftRight_or_distrib, hf, BitVec.or_zero, high]

theorem high_and (w : BitVec 32) (hf : Low f) : high (w &&& f) = 0 := by
  rw [high, BitVec.ushiftRight_and_distrib, hf, BitVec.and_zero, BitVec.toNat_zero]

theorem high_low (hf : Low f) : high f = 0 := by
  rw [high, hf, BitVec.toNat_zero]

theorem high_shiftLeft (h : n < 2 ^ 20) : high (BitVec.ofNat 32 n <<< 12) = n := by
  simp only [high, BitVec.toNat_ushiftRight, BitVec.toNat_shiftLeft, BitVec.toNat_ofNat,
    Nat.shiftLeft_eq, Nat.shiftRight_eq_div_pow]
  omega

theorem shiftLeft_and (w : BitVec 32) (hf : Low f) : w <<< 12 &&& f = 0#32 := by
  refine BitVec.eq_of_getLsbD_eq fun i hi => ?_
  rw [BitVec.getLsbD_and, BitVec.getLsbD_shiftLeft, BitVec.getLsbD_zero]
  rcases Nat.lt_or_ge i 12 with hlt | hge
  · simp [hlt]
  · rw [hf.getLsbD hge, Bool.and_false]

def anyOf (w f : BitVec 32) : Bool := w &&& f != 0#32

theorem anyOf_or (w g f : BitVec 32) : anyOf (w ||| g) f = (anyOf w f || anyOf g f) := by
  rw [anyOf, BitVec.and_or_distrib_right, Bool.eq_iff_iff]
  simp only [anyOf, bne_iff_ne, ne_eq, BitVec.or_eq_zero_iff, Bool.or_eq_true]
  exact not_and_or

theorem anyOf_shiftLeft (w : BitVec 32) (hf : Low f) : anyOf (w <<< 12) f = false := by
  rw [anyOf, shiftLeft_and w hf]
  rfl

theorem toNat_shiftLeft (h : n < 2 ^ 20) : (BitVec.ofNat 32 n <<< 12).toNat = n * 4096 := by
  rw [BitVec.toNat_shiftLeft, BitVec.toNat_ofNat, Nat.mod_eq_of_lt (by omega), Nat.shiftLeft_eq,
    Nat.mod_eq_of_lt (by omega)]

theorem and_high (w : BitVec 32) : w &&& 0xFFFFF000#32 = BitVec.ofNat 32 (high w) <<< 12 := by
  apply BitVec.eq_of_toNat_eq
  rw [toNat_shiftLeft (high_lt w), BitVec.toNat_and, high, BitVec.toNat_ushiftRight,
    Nat.shiftRight_eq_div_pow, show (0xFFFFF000#32).toNat = 2 ^ 32 - 2 ^ 12 by decide]
  exact and_sub_two_pow w.isLt (by decide)

theorem ofNat_page (n : Nat) : BitVec.ofNat 32 (4096 * n) = BitVec.ofNat 32 n <<< 12 := by
  apply BitVec.eq_of_toNat_eq
  simp only [BitVec.toNat_ofNat, BitVec.toNat_shiftLeft, Nat.shiftLeft_eq]
  omega

end

end Shigure
