import Mathlib.Data.Nat.Bitwise

/-!
# 32-bit unsigned arithmetic

Values are natural numbers below `2 ^ 32`; the operations wrap.
-/

namespace Shigure

def wordSize : Nat := 2 ^ 32

def add32 (a b : Nat) : Nat := (a + b) % wordSize

def sub32 (a b : Nat) : Nat := (a + (wordSize - b % wordSize)) % wordSize

/-- Round up to a multiple of the alignment, a power of two:
`(value + (alignment - 1)) & ~(alignment - 1)`. -/
def align (value alignment : Nat) : Nat :=
  add32 value (alignment - 1) &&& (wordSize - alignment)

def intOfWord (w : Nat) : Int := if w < 2 ^ 31 then w else w - 2 ^ 32

def wordOfInt (i : Int) : Nat := (i % 2 ^ 32).toNat

theorem intOfWord_wordOfInt {h : Int} (h0 : 0 ≤ h) (h1 : h < 2 ^ 31) :
    intOfWord (wordOfInt h) = h := by
  have hw : ((wordOfInt h : Nat) : Int) = h := by
    simp only [wordOfInt]
    omega
  rw [intOfWord, if_pos (by omega)]
  exact hw

theorem wordOfInt_lt (h : Int) : wordOfInt h < 2 ^ 32 := by
  simp only [wordOfInt]
  omega

theorem add32_eq (h : a + b < wordSize) : add32 a b = a + b := Nat.mod_eq_of_lt h

theorem sub32_eq (h : b ≤ a) (ha : a < wordSize) : sub32 a b = a - b := by
  rw [sub32, Nat.mod_eq_of_lt (h.trans_lt ha), show a + (wordSize - b) = a - b + wordSize by omega,
    Nat.add_mod_right, Nat.mod_eq_of_lt (by omega)]

theorem and_sub_two_pow (hx : x < 2 ^ n) (hk : k ≤ n) :
    x &&& (2 ^ n - 2 ^ k) = x / 2 ^ k * 2 ^ k := by
  have hm : 2 ^ n - 2 ^ k = (2 ^ (n - k) - 1) <<< k := by
    rw [Nat.shiftLeft_eq, Nat.sub_mul, ← pow_add, Nat.sub_add_cancel hk, Nat.one_mul]
  rw [hm, ← Nat.shiftRight_eq_div_pow, ← Nat.shiftLeft_eq]
  refine Nat.eq_of_testBit_eq fun i => ?_
  rw [Nat.testBit_and, Nat.testBit_shiftLeft, Nat.testBit_shiftLeft, Nat.testBit_two_pow_sub_one,
    Nat.testBit_shiftRight]
  by_cases hi : i ≥ k
  · simp only [hi, decide_true, Bool.true_and, Nat.add_sub_cancel' hi]
    by_cases hn : i < n
    · simp [show i - k < n - k by omega]
    · rw [Nat.testBit_lt_two_pow (hx.trans_le (Nat.pow_le_pow_right (by decide) (by omega)))]
      simp
  · simp [hi]

theorem align_eq (hk : k ≤ 32) (h : value + (2 ^ k - 1) < wordSize) :
    align value (2 ^ k) = (value + (2 ^ k - 1)) / 2 ^ k * 2 ^ k := by
  rw [align, add32_eq h]
  exact and_sub_two_pow h hk

end Shigure
