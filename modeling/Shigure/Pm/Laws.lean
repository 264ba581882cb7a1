import Shigure.Pm.Frames

/-!
# Bits and where they lie

`bit` is what a bitmap says about a block, `cap` how many bits its bytes hold.
The bitmaps follow one another, so a bit within the capacity of its bitmap is
its own, and an index past the end of a bitmap only meets higher orders.
-/

namespace Shigure.Pm

namespace FrameState

def addr (st : FrameState) (order index : Nat) : Nat :=
  8 * (st.buddyBitmaps order).bitmap + index

def bit (st : FrameState) (order index : Nat) : Bool := st.mem.bit (st.addr order index)

def cap (st : FrameState) (order : Nat) : Nat := 8 * (st.buddyBitmaps order).bytes

/-- The sizes and places that `frame_initialize` gives the bitmaps. -/
structure Layout (st : FrameState) : Prop where
  numBits : ∀ j, (st.buddyBitmaps j).numBits = st.nframes / 2 ^ j
  next : ∀ j, (st.buddyBitmaps (j + 1)).bitmap = (st.buddyBitmaps j).bitmap + (st.buddyBitmaps j).bytes

theorem numBits_le_cap (st : FrameState) (j : Nat) : (st.buddyBitmaps j).numBits ≤ st.cap j := by
  simp only [cap, BuddyBitmap.bytes]
  omega

section
variable {st : FrameState} {j J m n x start : Nat}

theorem Layout.half (hl : st.Layout) (j : Nat) :
    (st.buddyBitmaps (j + 1)).numBits = (st.buddyBitmaps j).numBits / 2 := by
  rw [hl.numBits, hl.numBits, pow_succ, Nat.div_div_eq_div_mul]

theorem Layout.bitmap_le (hl : st.Layout) (h : j ≤ J) :
    (st.buddyBitmaps j).bitmap ≤ (st.buddyBitmaps J).bitmap := by
  induction h with
  | refl => exact le_refl _
  | step _ ih => exact ih.trans (by rw [hl.next]; exact Nat.le_add_right _ _)

theorem Layout.addr_lt (hl : st.Layout) (h : j < J) (hn : n < st.cap j) :
    st.addr j n < st.addr J m := by
  have hle := hl.bitmap_le (show j + 1 ≤ J from h)
  rw [hl.next] at hle
  simp only [addr, cap] at *
  omega

end

-- ---------------------------------------------------------------------------
-- One bit
-- ---------------------------------------------------------------------------

section
variable {st : FrameState} {o j J m n k x start : Nat}

@[simp] theorem touch_bit : (st.touch o n).bit j m = st.bit j m := rfl

@[simp] theorem touch_mem : (st.touch o n).mem = st.mem := rfl

@[simp] theorem touch_nframes : (st.touch o n).nframes = st.nframes := rfl

@[simp] theorem touch_buddyBitmaps : (st.touch o n).buddyBitmaps = st.buddyBitmaps := rfl

@[simp] theorem touch_accesses : (st.touch o n).accesses = ⟨o, n⟩ :: st.accesses := rfl

theorem isBitSet_eq : st.isBitSet o n = (st.bit o n, st.touch o n) := by
  have h : 8 * ((st.buddyBitmaps o).bitmap + n / 8) + n % 8 = st.addr o n := by
    simp only [addr]
    omega
  rw [isBitSet, byteAddr, Mem.and_ne_zero _ (by omega), h, bit]

theorem setBit_bit :
    (st.setBit o n).bit j m = (decide (st.addr j m = st.addr o n) || st.bit j m) := by
  have h : 8 * ((st.buddyBitmaps o).bitmap + n / 8) + n % 8 = st.addr o n := by
    simp only [addr]
    omega
  simp only [bit, setBit, byteAddr, Mem.bit_or _ (Nat.mod_lt n (by decide : 0 < 8)), h]
  rfl

theorem clearBit_bit :
    (st.clearBit o n).bit j m = (!decide (st.addr j m = st.addr o n) && st.bit j m) := by
  have h : 8 * ((st.buddyBitmaps o).bitmap + n / 8) + n % 8 = st.addr o n := by
    simp only [addr]
    omega
  simp only [bit, clearBit, byteAddr, Mem.bit_andNot _ (Nat.mod_lt n (by decide : 0 < 8)), h]
  rfl

-- ---------------------------------------------------------------------------
-- Runs of bits
-- ---------------------------------------------------------------------------

@[simp] theorem setRun_buddyBitmaps : (st.setRun j start n).buddyBitmaps = st.buddyBitmaps := by
  induction n with
  | zero => rfl
  | succ n ih => exact ih

@[simp] theorem clearRun_buddyBitmaps :
    (st.clearRun j start n).buddyBitmaps = st.buddyBitmaps := by
  induction n with
  | zero => rfl
  | succ n ih => exact ih

@[simp] theorem setRun_nframes : (st.setRun j start n).nframes = st.nframes := by
  induction n with
  | zero => rfl
  | succ n ih => exact ih

@[simp] theorem clearRun_nframes : (st.clearRun j start n).nframes = st.nframes := by
  induction n with
  | zero => rfl
  | succ n ih => exact ih

theorem setRun_accesses (h : a ∈ (st.setRun j start n).accesses) :
    a ∈ st.accesses ∨ (a.order = j ∧ start ≤ a.index ∧ a.index < start + n) := by
  induction n with
  | zero => exact .inl h
  | succ n ih =>
    rcases List.mem_cons.mp h with rfl | h
    · exact .inr ⟨rfl, by simp⟩
    · exact (ih h).imp_right fun ⟨h1, h2, h3⟩ => ⟨h1, h2, by omega⟩

theorem clearRun_accesses (h : a ∈ (st.clearRun j start n).accesses) :
    a ∈ st.accesses ∨ (a.order = j ∧ start ≤ a.index ∧ a.index < start + n) := by
  induction n with
  | zero => exact .inl h
  | succ n ih =>
    rcases List.mem_cons.mp h with rfl | h
    · exact .inr ⟨rfl, by simp⟩
    · exact (ih h).imp_right fun ⟨h1, h2, h3⟩ => ⟨h1, h2, by omega⟩

@[simp] theorem touch_cap : (st.touch o x).cap j = st.cap j := rfl

@[simp] theorem setRun_cap : (st.setRun j start n).cap J = st.cap J := by
  simp only [cap, setRun_buddyBitmaps]

@[simp] theorem clearRun_cap : (st.clearRun j start n).cap J = st.cap J := by
  simp only [cap, clearRun_buddyBitmaps]

@[simp] theorem setRun_addr : (st.setRun j start n).addr J m = st.addr J m := by
  simp only [addr, setRun_buddyBitmaps]

@[simp] theorem clearRun_addr : (st.clearRun j start n).addr J m = st.addr J m := by
  simp only [addr, clearRun_buddyBitmaps]

theorem Layout.congr {st' : FrameState} (hl : st.Layout)
    (hb : st'.buddyBitmaps = st.buddyBitmaps) (hn : st'.nframes = st.nframes) : st'.Layout :=
  ⟨fun j => by rw [hb, hn, hl.numBits], fun j => by rw [hb, hl.next]⟩

theorem Layout.touch (hl : st.Layout) : (st.touch o x).Layout := hl.congr rfl rfl

theorem Layout.setRun (hl : st.Layout) : (st.setRun j start n).Layout :=
  hl.congr setRun_buddyBitmaps setRun_nframes

theorem Layout.clearRun (hl : st.Layout) : (st.clearRun j start n).Layout :=
  hl.congr clearRun_buddyBitmaps clearRun_nframes

theorem setRun_bit_addr : (st.setRun j start n).bit J m =
    (decide (st.addr j start ≤ st.addr J m ∧ st.addr J m < st.addr j start + n) ||
      st.bit J m) := by
  induction n with
  | zero =>
    rw [decide_eq_false (by omega), Bool.false_or]
    rfl
  | succ n ih =>
    rw [FrameState.setRun, setBit_bit, ih, setRun_addr, setRun_addr, ← Bool.or_assoc,
      ← Bool.decide_or]
    congr 1
    refine decide_eq_decide.mpr ?_
    simp only [addr]
    omega

theorem clearRun_bit_addr : (st.clearRun j start n).bit J m =
    (!decide (st.addr j start ≤ st.addr J m ∧ st.addr J m < st.addr j start + n) &&
      st.bit J m) := by
  induction n with
  | zero =>
    rw [decide_eq_false (by omega), Bool.not_false, Bool.true_and]
    rfl
  | succ n ih =>
    rw [FrameState.clearRun, clearBit_bit, ih, clearRun_addr, clearRun_addr, ← Bool.and_assoc,
      ← Bool.not_or, ← Bool.decide_or]
    congr 2
    refine decide_eq_decide.mpr ?_
    simp only [addr]
    omega

/-- A run within its bitmap stays below the bits of a higher order, in bounds
or not. -/
theorem Layout.run_above (hl : st.Layout) (hin : start + n ≤ st.cap j) (hj : j < J) :
    ¬ (st.addr j start ≤ st.addr J m ∧ st.addr J m < st.addr j start + n) := by
  rintro ⟨h1, h2⟩
  have hn : 0 < n := by omega
  have := hl.addr_lt (m := m) hj (show start + n - 1 < st.cap j by omega)
  simp only [addr] at h1 h2 this
  omega

theorem Layout.run_iff (hl : st.Layout) (hin : start + n ≤ st.cap j) (hm : m < st.cap J) :
    (st.addr j start ≤ st.addr J m ∧ st.addr J m < st.addr j start + n) ↔
      J = j ∧ start ≤ m ∧ m < start + n := by
  rcases Nat.lt_trichotomy j J with hj | rfl | hj
  · exact iff_of_false (hl.run_above hin hj) fun h => hj.ne' h.1
  · simp only [addr, true_and]
    omega
  · refine iff_of_false ?_ fun h => hj.ne h.1
    rintro ⟨h1, -⟩
    exact absurd (hl.addr_lt (m := start) hj hm) h1.not_gt

theorem Layout.setRun_bit (hl : st.Layout) (hin : start + n ≤ st.cap j) (hm : m < st.cap J) :
    (st.setRun j start n).bit J m =
      (decide (J = j ∧ start ≤ m ∧ m < start + n) || st.bit J m) := by
  rw [setRun_bit_addr, decide_eq_decide.mpr (hl.run_iff hin hm)]

theorem Layout.clearRun_bit (hl : st.Layout) (hin : start + n ≤ st.cap j) (hm : m < st.cap J) :
    (st.clearRun j start n).bit J m =
      (!decide (J = j ∧ start ≤ m ∧ m < start + n) && st.bit J m) := by
  rw [clearRun_bit_addr, decide_eq_decide.mpr (hl.run_iff hin hm)]

theorem Layout.setRun_bit_above (hl : st.Layout) (hin : start + n ≤ st.cap j) (hj : j < J) :
    (st.setRun j start n).bit J m = st.bit J m := by
  rw [setRun_bit_addr, decide_eq_false (hl.run_above hin hj), Bool.false_or]

theorem Layout.clearRun_bit_above (hl : st.Layout) (hin : start + n ≤ st.cap j) (hj : j < J) :
    (st.clearRun j start n).bit J m = st.bit J m := by
  rw [clearRun_bit_addr, decide_eq_false (hl.run_above hin hj), Bool.not_false, Bool.true_and]

theorem Layout.setRun_bit_below (hl : st.Layout) (hj : J < j) (hm : m < st.cap J) :
    (st.setRun j start n).bit J m = st.bit J m := by
  rw [setRun_bit_addr, decide_eq_false, Bool.false_or]
  exact fun h => absurd (hl.addr_lt (m := start) hj hm) h.1.not_gt

theorem Layout.clearRun_bit_below (hl : st.Layout) (hj : J < j) (hm : m < st.cap J) :
    (st.clearRun j start n).bit J m = st.bit J m := by
  rw [clearRun_bit_addr, decide_eq_false, Bool.not_false, Bool.true_and]
  exact fun h => absurd (hl.addr_lt (m := start) hj hm) h.1.not_gt

end

end FrameState

end Shigure.Pm
