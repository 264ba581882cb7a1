import Mathlib.Data.Nat.Bitwise

/-!
# Byte memory

Memory is a byte for every address. `bit` numbers its bits through: bit `x` is
bit `x % 8` of byte `x / 8`, which is how a bitmap in memory is indexed. `read32`
and `write32` are words of four bytes, the lowest first.
-/

namespace Shigure

abbrev Mem := Nat → BitVec 8

namespace Mem

def set (m : Mem) (a : Nat) (v : BitVec 8) : Mem := fun x => if x = a then v else m x

def bit (m : Mem) (x : Nat) : Bool := (m (x / 8)).getLsbD (x % 8)

-- ---------------------------------------------------------------------------
-- Single bits
-- ---------------------------------------------------------------------------

theorem getLsbD_one_shiftLeft (hk : k < 8) : (1#8 <<< k).getLsbD i = decide (i = k) := by
  simp only [BitVec.getLsbD_shiftLeft, BitVec.getLsbD_one]
  rw [Bool.eq_iff_iff]
  simp only [Bool.and_eq_true, Bool.not_eq_true', decide_eq_true_eq, decide_eq_false_iff_not]
  omega

theorem bit_or (m : Mem) (hk : k < 8) :
    (m.set a (m a ||| 1#8 <<< k)).bit x = (decide (x = 8 * a + k) || m.bit x) := by
  simp only [bit, set]
  split
  · rename_i h
    rw [BitVec.getLsbD_or, getLsbD_one_shiftLeft hk, ← h, Bool.or_comm]
    congr 1
    exact decide_eq_decide.mpr (by omega)
  · rw [decide_eq_false (by omega), Bool.false_or]

theorem bit_andNot (m : Mem) (hk : k < 8) :
    (m.set a (m a &&& ~~~(1#8 <<< k))).bit x = (!decide (x = 8 * a + k) && m.bit x) := by
  simp only [bit, set]
  split
  · rename_i h
    have hx : x % 8 < 8 := by omega
    rw [BitVec.getLsbD_and, BitVec.getLsbD_not, getLsbD_one_shiftLeft hk, ← h, Bool.and_comm,
      decide_eq_true hx, Bool.true_and]
    congr 2
    exact decide_eq_decide.mpr (by omega)
  · rw [decide_eq_false (by omega), Bool.not_false, Bool.true_and]

theorem and_ne_zero (m : Mem) (hk : k < 8) :
    ((m a &&& 1#8 <<< k) != 0#8) = m.bit (8 * a + k) := by
  have ha : (8 * a + k) / 8 = a := by omega
  have hk' : (8 * a + k) % 8 = k := by omega
  rw [bit, ha, hk', Bool.eq_iff_iff, bne_iff_ne]
  constructor
  · intro h
    by_contra hbit
    refine h (BitVec.eq_of_getLsbD_eq fun i _ => ?_)
    rw [BitVec.getLsbD_and, getLsbD_one_shiftLeft hk, BitVec.getLsbD_zero]
    by_cases hi : i = k
    · subst hi
      simpa using hbit
    · simp [hi]
  · intro h h0
    have := congrArg (BitVec.getLsbD · k) h0
    simp [BitVec.getLsbD_and, getLsbD_one_shiftLeft hk, h] at this

-- ---------------------------------------------------------------------------
-- Words
-- ---------------------------------------------------------------------------

def read32 (m : Mem) (a : Nat) : Nat :=
  (m a).toNat + 2 ^ 8 * (m (a + 1)).toNat + 2 ^ 16 * (m (a + 2)).toNat + 2 ^ 24 * (m (a + 3)).toNat

def write32 (m : Mem) (a v : Nat) : Mem :=
  (((m.set a (.ofNat 8 v)).set (a + 1) (.ofNat 8 (v / 2 ^ 8))).set (a + 2)
    (.ofNat 8 (v / 2 ^ 16))).set (a + 3) (.ofNat 8 (v / 2 ^ 24))

theorem read32_lt (m : Mem) (a : Nat) : m.read32 a < 2 ^ 32 := by
  simp only [read32]
  omega

theorem read32_congr {m m' : Mem} (h : ∀ x, a ≤ x → x < a + 4 → m' x = m x) :
    m'.read32 a = m.read32 a := by
  simp only [read32]
  rw [h a (by omega) (by omega), h (a + 1) (by omega) (by omega), h (a + 2) (by omega) (by omega),
    h (a + 3) (by omega) (by omega)]

theorem write32_outside (m : Mem) (h : x < a ∨ a + 4 ≤ x) : (m.write32 a v) x = m x := by
  simp only [write32, set]
  rw [if_neg (by omega), if_neg (by omega), if_neg (by omega), if_neg (by omega)]

theorem write32_byte0 (m : Mem) : (m.write32 a v) a = .ofNat 8 v := by simp [write32, set]

theorem write32_byte1 (m : Mem) : (m.write32 a v) (a + 1) = .ofNat 8 (v / 2 ^ 8) := by
  simp [write32, set]

theorem write32_byte2 (m : Mem) : (m.write32 a v) (a + 2) = .ofNat 8 (v / 2 ^ 16) := by
  simp [write32, set]

theorem write32_byte3 (m : Mem) : (m.write32 a v) (a + 3) = .ofNat 8 (v / 2 ^ 24) := by
  simp [write32, set]

theorem read32_write32 (m : Mem) (a : Nat) (hv : v < 2 ^ 32) : (m.write32 a v).read32 a = v := by
  rw [read32, write32_byte0, write32_byte1, write32_byte2, write32_byte3]
  simp only [BitVec.toNat_ofNat]
  omega

theorem read32_write32_apart (m : Mem) (h : b + 4 ≤ a ∨ a + 4 ≤ b) :
    (m.write32 a v).read32 b = m.read32 b :=
  read32_congr fun _ _ _ => write32_outside m (by omega)

theorem write32_read32 (m : Mem) (src dst : Nat) (hk : k < 4) :
    (m.write32 dst (m.read32 src)) (dst + k) = m (src + k) := by
  refine BitVec.eq_of_toNat_eq ?_
  obtain rfl | rfl | rfl | rfl : k = 0 ∨ k = 1 ∨ k = 2 ∨ k = 3 := by omega
  · simp only [Nat.add_zero]
    rw [write32_byte0, read32, BitVec.toNat_ofNat]
    omega
  · rw [write32_byte1, read32, BitVec.toNat_ofNat]
    omega
  · rw [write32_byte2, read32, BitVec.toNat_ofNat]
    omega
  · rw [write32_byte3, read32, BitVec.toNat_ofNat]
    omega

-- ---------------------------------------------------------------------------
-- Runs of bytes
-- ---------------------------------------------------------------------------

def store (m : Mem) (a : Nat) (bs : List (BitVec 8)) : Mem :=
  fun x => if a ≤ x ∧ x < a + bs.length then bs.getD (x - a) 0 else m x

theorem store_outside (m : Mem) (bs : List (BitVec 8)) (h : x < a ∨ a + bs.length ≤ x) :
    m.store a bs x = m x := by
  rw [store, if_neg (by omega)]

theorem store_inside (m : Mem) (bs : List (BitVec 8)) (h : i < bs.length) :
    m.store a bs (a + i) = bs.getD i 0 := by
  rw [store, if_pos (by omega), Nat.add_sub_cancel_left]

def wordBytes (v : BitVec 32) : List (BitVec 8) :=
  [v.setWidth 8, (v >>> 8).setWidth 8, (v >>> 16).setWidth 8, (v >>> 24).setWidth 8]

theorem read32_of_bytes {m : Mem} {v : BitVec 32}
    (h : ∀ i, i < 4 → m (a + i) = (wordBytes v).getD i 0) : m.read32 a = v.toNat := by
  have hv := v.isLt
  have h0 := h 0 (by omega)
  have h1 := h 1 (by omega)
  have h2 := h 2 (by omega)
  have h3 := h 3 (by omega)
  simp only [wordBytes, Nat.add_zero, List.getD_cons_zero, List.getD_cons_succ] at h0 h1 h2 h3
  rw [read32, h0, h1, h2, h3]
  simp only [BitVec.toNat_setWidth, BitVec.toNat_ushiftRight, Nat.shiftRight_eq_div_pow]
  omega

end Mem

end Shigure
