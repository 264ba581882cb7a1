import Mathlib.Data.Nat.Bitwise
import Mathlib.Tactic.Ring

/-!
# Blocks and buddies

A block of order `o` is a run of `2 ^ o` units that starts at a multiple of
`2 ^ o`; at level `j` a unit `f` lies in the cell `f / 2 ^ j`. `Covers o f j n`
says that the block of order `o` at `f` meets the cell `n` of level `j`: below
its own order it is made of cells, above it lies in one.
-/

namespace Shigure.Buddy

def Covers (o f j n : Nat) : Prop := f / 2 ^ j ≤ n ∧ n < f / 2 ^ j + 2 ^ (o - j)

instance : Decidable (Covers o f j n) := inferInstanceAs (Decidable (_ ∧ _))

theorem div_pow_succ (f j : Nat) : f / 2 ^ (j + 1) = f / 2 ^ j / 2 := by
  rw [pow_succ, Nat.div_div_eq_div_mul]

theorem div_div_pow (f : Nat) (h : o ≤ j) : f / 2 ^ o / 2 ^ (j - o) = f / 2 ^ j := by
  rw [Nat.div_div_eq_div_mul, ← pow_add, Nat.add_sub_cancel' h]

/-- Below its own order a block begins with a first child. -/
theorem even_of_lt (hf : 2 ^ o ∣ f) (h : j < o) : f / 2 ^ j = 2 * (f / 2 ^ (j + 1)) := by
  obtain ⟨k, rfl⟩ := (pow_dvd_pow 2 h).trans hf
  rw [Nat.mul_div_cancel_left _ (Nat.two_pow_pos _), Nat.succ_eq_add_one, pow_succ, mul_assoc,
    Nat.mul_div_cancel_left _ (Nat.two_pow_pos _)]

theorem covers_zero : Covers o f 0 n ↔ f ≤ n ∧ n < f + 2 ^ o := by
  simp [Covers]

theorem covers_above (h : o ≤ j) : Covers o f j n ↔ n = f / 2 ^ j := by
  rw [Covers, Nat.sub_eq_zero_of_le h]
  omega

theorem covers_first : Covers o f j (f / 2 ^ j) :=
  ⟨le_refl _, Nat.lt_add_of_pos_right (Nat.two_pow_pos _)⟩

theorem covers_half (hf : 2 ^ o ∣ f) (h : j < o) :
    Covers o f (j + 1) (n / 2) ↔ Covers o f j n := by
  have hw : 2 ^ (o - j) = 2 * 2 ^ (o - (j + 1)) := by
    rw [← pow_succ']
    congr 1
    omega
  rw [Covers, Covers, even_of_lt hf h, hw]
  omega

theorem Covers.half (hf : 2 ^ o ∣ f) (h : Covers o f j n) : Covers o f (j + 1) (n / 2) := by
  rcases Nat.lt_or_ge j o with hj | hj
  · exact (covers_half hf hj).mpr h
  · rw [covers_above hj] at h
    rw [covers_above (hj.trans (Nat.le_succ j)), h, div_pow_succ]

theorem Covers.lt_div (hf : 2 ^ o ∣ f) (hN : f + 2 ^ o ≤ N) (h : Covers o f j n) (hj : j ≤ o) :
    n < N / 2 ^ j := by
  refine h.2.trans_le ?_
  obtain ⟨k, rfl⟩ := (pow_dvd_pow 2 hj).trans hf
  have ho : 2 ^ o = 2 ^ j * 2 ^ (o - j) := by rw [← pow_add, Nat.add_sub_cancel' hj]
  rw [Nat.mul_div_cancel_left _ (Nat.two_pow_pos _), Nat.le_div_iff_mul_le (Nat.two_pow_pos _)]
  calc (k + 2 ^ (o - j)) * 2 ^ j = 2 ^ j * k + 2 ^ o := by rw [ho]; ring
    _ ≤ N := hN

theorem xor_one (n : Nat) : n ^^^ 1 = if n % 2 = 0 then n + 1 else n - 1 := by
  split
  · exact Nat.xor_one_of_even (Nat.even_iff.mpr ‹_›)
  · exact Nat.xor_one_of_odd (Nat.odd_iff.mpr (by omega))

theorem child_cases (h : c = n / 2) : (n = 2 * c ∧ n ^^^ 1 = 2 * c + 1) ∨
    (n = 2 * c + 1 ∧ n ^^^ 1 = 2 * c) := by
  rw [xor_one]
  split <;> omega

end Shigure.Buddy
