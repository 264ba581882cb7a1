import Shigure.Lib.Buddy
import Shigure.Pm.Laws

/-!
# The loops of `pmalloc` and `pfree`

Each loop is described by what it does to the bits, with every bit it reads
taken from the state it starts in. `Reached` is how far the marking loop gets,
`Merges` what the merging loop reads at a level.
-/

namespace Shigure.Pm

open Buddy

namespace FrameState

def Reached (st : FrameState) (f j : Nat) : Prop := ∀ k < j, st.bit k (f / 2 ^ k) = true

/-- The bit that decides at level `j` whether the merging loop goes on. The loop
has itself set the bit of the freed block at its own order. -/
def Merges (st : FrameState) (o f j : Nat) : Prop :=
  st.bit o (f / 2 ^ j ^^^ 1) = true ∨ (o < j ∧ f / 2 ^ j ^^^ 1 = f / 2 ^ o)

def MergesTo (st : FrameState) (o f j : Nat) : Prop := ∀ k < j, st.Merges o f k

instance (st : FrameState) : Decidable (st.Reached f j) :=
  inferInstanceAs (Decidable (∀ k < j, _))

instance (st : FrameState) : Decidable (st.Merges o f j) := inferInstanceAs (Decidable (_ ∨ _))

instance (st : FrameState) : Decidable (st.MergesTo o f j) :=
  inferInstanceAs (Decidable (∀ k < j, _))

end FrameState

open FrameState

theorem width_eq (o j : Nat) : width o j = 2 ^ (o - j) := by
  rw [width]
  split
  · exact Nat.one_shiftLeft _
  · rw [Nat.sub_eq_zero_of_le (by omega), pow_zero]

theorem startIndex_eq (o i j : Nat) : startIndex o i j = i * 2 ^ o / 2 ^ j := by
  rw [startIndex]
  split
  · rename_i h
    rw [Nat.shiftLeft_eq, ← Nat.sub_add_cancel h, pow_add, ← mul_assoc,
      Nat.mul_div_cancel _ (Nat.two_pow_pos _), Nat.add_sub_cancel]
  · rw [Nat.shiftRight_eq_div_pow, ← div_div_pow _ (by omega : o ≤ j),
      Nat.mul_div_cancel _ (Nat.two_pow_pos _)]

-- ---------------------------------------------------------------------------
-- Searching
-- ---------------------------------------------------------------------------

section
variable {st : FrameState} {o f i j J m n : Nat}

@[simp] theorem firstFree_mem : (firstFree o n i st).2.mem = st.mem := by
  induction n generalizing i st with
  | zero => rfl
  | succ n ih =>
    simp only [firstFree, isBitSet_eq]
    split
    · rfl
    · exact ih

@[simp] theorem firstFree_buddyBitmaps :
    (firstFree o n i st).2.buddyBitmaps = st.buddyBitmaps := by
  induction n generalizing i st with
  | zero => rfl
  | succ n ih =>
    simp only [firstFree, isBitSet_eq]
    split
    · rfl
    · exact ih

@[simp] theorem firstFree_nframes : (firstFree o n i st).2.nframes = st.nframes := by
  induction n generalizing i st with
  | zero => rfl
  | succ n ih =>
    simp only [firstFree, isBitSet_eq]
    split
    · rfl
    · exact ih

theorem firstFree_some (h : (firstFree o n i st).1 = some m) :
    i ≤ m ∧ m < i + n ∧ st.bit o m = true ∧ ∀ k, i ≤ k → k < m → st.bit o k = false := by
  induction n generalizing i st with
  | zero => cases h
  | succ n ih =>
    simp only [firstFree, isBitSet_eq] at h
    split at h
    · rename_i hb
      cases h
      exact ⟨le_refl _, by omega, hb, fun k h1 h2 => absurd h1 h2.not_ge⟩
    · rename_i hb
      obtain ⟨h1, h2, h3, h4⟩ := ih h
      refine ⟨by omega, by omega, by simpa using h3, fun k hk hkm => ?_⟩
      rcases hk.eq_or_lt with rfl | hk
      · simpa using hb
      · simpa using h4 k hk hkm

theorem firstFree_none (h : (firstFree o n i st).1 = none) (hi : i ≤ m) (hm : m < i + n) :
    st.bit o m = false := by
  induction n generalizing i st with
  | zero => omega
  | succ n ih =>
    simp only [firstFree, isBitSet_eq] at h
    split at h
    · cases h
    · rename_i hb
      rcases hi.eq_or_lt with rfl | hi
      · simpa using hb
      · simpa using ih h hi (by omega)

theorem firstFree_accesses (h : a ∈ (firstFree o n i st).2.accesses) :
    a ∈ st.accesses ∨ (a.order = o ∧ a.index < i + n) := by
  induction n generalizing i st with
  | zero => exact .inl h
  | succ n ih =>
    simp only [firstFree, isBitSet_eq] at h
    split at h
    · simp only [touch_accesses, List.mem_cons] at h
      rcases h with rfl | h
      · exact .inr ⟨rfl, by simp⟩
      · exact .inl h
    · rcases ih h with h | ⟨h1, h2⟩
      · simp only [touch_accesses, List.mem_cons] at h
        rcases h with rfl | h
        · exact .inr ⟨rfl, by simp⟩
        · exact .inl h
      · exact .inr ⟨h1, by omega⟩

end

-- ---------------------------------------------------------------------------
-- Marking
-- ---------------------------------------------------------------------------

section
variable {st : FrameState} {o f i j J m n : Nat} {js : List Nat}

@[simp] theorem markUsed_buddyBitmaps :
    (markUsed o i js st).buddyBitmaps = st.buddyBitmaps := by
  induction js generalizing st with
  | nil => rfl
  | cons j js ih =>
    simp only [markUsed, isBitSet_eq]
    split
    · rw [ih, clearRun_buddyBitmaps, touch_buddyBitmaps]
    · rfl

@[simp] theorem markUsed_nframes : (markUsed o i js st).nframes = st.nframes := by
  induction js generalizing st with
  | nil => rfl
  | cons j js ih =>
    simp only [markUsed, isBitSet_eq]
    split
    · rw [ih, clearRun_nframes, touch_nframes]
    · rfl

theorem markUsed_bit_below (hl : st.Layout) (hj : ∀ j ∈ js, J < j) (hm : m < st.cap J) :
    (markUsed o i js st).bit J m = st.bit J m := by
  induction js generalizing st with
  | nil => rfl
  | cons j js ih =>
    have hjs : ∀ j ∈ js, J < j := fun k hk => hj k (List.mem_cons_of_mem j hk)
    simp only [markUsed, isBitSet_eq]
    split
    · rw [ih hl.touch.clearRun hjs (by simpa using hm),
        hl.touch.clearRun_bit_below (hj j List.mem_cons_self) hm, touch_bit]
    · rfl

def MarkFits (st : FrameState) (o f j n : Nat) : Prop :=
  ∀ k, j ≤ k → k < j + n → (∀ l, j ≤ l → l < k → st.bit l (f / 2 ^ l) = true) →
    f / 2 ^ k + 2 ^ (o - k) ≤ st.cap k

theorem MarkFits.first (h : MarkFits st o f j (n + 1)) : f / 2 ^ j + 2 ^ (o - j) ≤ st.cap j :=
  h j (le_refl j) (by omega) fun l h1 h2 => absurd h1 h2.not_ge

theorem MarkFits.rest (hl : st.Layout) (h : MarkFits st o f j (n + 1))
    (hb : st.bit j (f / 2 ^ j) = true) :
    MarkFits ((st.touch j x).clearRun j (f / 2 ^ j) (2 ^ (o - j))) o f (j + 1) n := by
  intro k hk hkn hreach
  rw [clearRun_cap, touch_cap]
  refine h k (by omega) (by omega) fun l h1 h2 => ?_
  rcases h1.eq_or_lt with rfl | h1
  · exact hb
  · have hbit := hreach l h1 h2
    rwa [hl.touch.clearRun_bit_above h.first h1, touch_bit] at hbit

theorem markUsed_bit (hf : f = i * 2 ^ o) (hl : st.Layout) (hfit : MarkFits st o f j n)
    (hm : m < st.cap J) :
    (markUsed o i (List.range' j n) st).bit J m = true ↔ st.bit J m = true ∧
      ¬ (j ≤ J ∧ J < j + n ∧ (∀ l, j ≤ l → l ≤ J → st.bit l (f / 2 ^ l) = true) ∧
        Covers o f J m) := by
  induction n generalizing j st with
  | zero =>
    simp only [List.range'_zero, markUsed]
    exact ⟨fun h => ⟨h, by omega⟩, fun h => h.1⟩
  | succ n ih =>
    simp only [List.range'_succ, markUsed, isBitSet_eq, startIndex_eq, width_eq, ← hf]
    split
    · rename_i hb
      rw [ih hl.touch.clearRun (hfit.rest hl hb) (by simpa using hm),
        hl.touch.clearRun_bit hfit.first hm]
      -- the levels above `j` read what they would have read before
      have habove : ∀ l, j + 1 ≤ l → ((st.touch j (f / 2 ^ j)).clearRun j (f / 2 ^ j)
          (2 ^ (o - j))).bit l (f / 2 ^ l) = st.bit l (f / 2 ^ l) := fun l h => by
        rw [hl.touch.clearRun_bit_above hfit.first h, touch_bit]
      simp only [touch_bit, Bool.and_eq_true, Bool.not_eq_true', decide_eq_false_iff_not, Covers]
      constructor
      · rintro ⟨⟨h1, h2⟩, h3⟩
        refine ⟨h2, ?_⟩
        rintro ⟨h4, h5, h6, h7⟩
        rcases h4.eq_or_lt with rfl | h4
        · exact h1 ⟨rfl, h7⟩
        · exact h3 ⟨h4, by omega, fun l hl hlJ => by rw [habove l hl, h6 l (by omega) hlJ], h7⟩
      · rintro ⟨h1, h2⟩
        refine ⟨⟨?_, h1⟩, ?_⟩
        · rintro ⟨rfl, h⟩
          exact h2 ⟨le_refl _, by omega, fun l h1 h2 => by rwa [show l = J by omega], h⟩
        · rintro ⟨h4, h5, h6, h7⟩
          refine h2 ⟨by omega, by omega, fun l hl hlJ => ?_, h7⟩
          rcases hl.eq_or_lt with rfl | hl
          · exact hb
          · rw [← habove l hl, h6 l hl hlJ]
    · rename_i hb
      simp only [touch_bit]
      refine ⟨fun h => ⟨h, fun hc => hb (hc.2.2.1 j (le_refl j) hc.1)⟩, fun h => h.1⟩

theorem markUsed_accesses (hf : f = i * 2 ^ o) (hl : st.Layout) (hfit : MarkFits st o f j n)
    (h : a ∈ (markUsed o i (List.range' j n) st).accesses) :
    a ∈ st.accesses ∨ (j ≤ a.order ∧ a.order < j + n ∧ a.index < st.cap a.order) := by
  induction n generalizing j st with
  | zero => exact .inl h
  | succ n ih =>
    simp only [List.range'_succ, markUsed, isBitSet_eq, startIndex_eq, width_eq, ← hf] at h
    have hread : a ∈ (st.touch j (f / 2 ^ j)).accesses →
        a ∈ st.accesses ∨ (j ≤ a.order ∧ a.order < j + (n + 1) ∧ a.index < st.cap a.order) := by
      intro ha
      rcases List.mem_cons.mp ha with rfl | ha
      · exact .inr ⟨le_refl _, by simp, covers_first.2.trans_le hfit.first⟩
      · exact .inl ha
    split at h
    · rename_i hb
      rcases ih hl.touch.clearRun (hfit.rest hl hb) h with h | ⟨h1, h2, h3⟩
      · rcases clearRun_accesses h with h | ⟨rfl, -, h2⟩
        · exact hread h
        · exact .inr ⟨le_refl _, by omega, h2.trans_le hfit.first⟩
      · exact .inr ⟨by omega, by omega, by simpa using h3⟩
    · exact hread h

end

-- ---------------------------------------------------------------------------
-- Merging
-- ---------------------------------------------------------------------------

section
variable {st : FrameState} {o f i j k J m n start : Nat} {js : List Nat}

@[simp] theorem mergeFree_buddyBitmaps :
    (mergeFree o f js st).buddyBitmaps = st.buddyBitmaps := by
  induction js generalizing st with
  | nil => rfl
  | cons j js ih =>
    simp only [mergeFree, isBitSet_eq]
    split
    · rw [ih, touch_buddyBitmaps, setRun_buddyBitmaps]
    · rw [touch_buddyBitmaps, setRun_buddyBitmaps]

@[simp] theorem mergeFree_nframes : (mergeFree o f js st).nframes = st.nframes := by
  induction js generalizing st with
  | nil => rfl
  | cons j js ih =>
    simp only [mergeFree, isBitSet_eq]
    split
    · rw [ih, touch_nframes, setRun_nframes]
    · rw [touch_nframes, setRun_nframes]

@[simp] theorem pfree_buddyBitmaps : (pfree f n st).buddyBitmaps = st.buddyBitmaps :=
  mergeFree_buddyBitmaps

@[simp] theorem pfree_nframes : (pfree f n st).nframes = st.nframes := mergeFree_nframes

theorem mergeFree_bit_below (hl : st.Layout) (hj : ∀ j ∈ js, J < j) (hm : m < st.cap J) :
    (mergeFree o f js st).bit J m = st.bit J m := by
  induction js generalizing st with
  | nil => rfl
  | cons j js ih =>
    have hjs : ∀ j ∈ js, J < j := fun k hk => hj k (List.mem_cons_of_mem j hk)
    simp only [mergeFree, isBitSet_eq]
    split
    · rw [ih hl.setRun.touch hjs (by simpa using hm), touch_bit,
        hl.setRun_bit_below (hj j List.mem_cons_self) hm]
    · rw [touch_bit, hl.setRun_bit_below (hj j List.mem_cons_self) hm]

/-- From its own order on, the buddy whose bit the loop reads is within the
bitmap of that order. -/
theorem buddy_lt_cap (hin : f / 2 ^ o < (st.buddyBitmaps o).numBits) (h : o ≤ k) :
    f / 2 ^ k ^^^ 1 < st.cap o := by
  have hle : f / 2 ^ k ≤ f / 2 ^ o := Nat.div_le_div_left (Nat.pow_le_pow_right (by decide) h)
    (Nat.two_pow_pos o)
  have hcap : st.cap o = 8 * (((st.buddyBitmaps o).numBits + 7) / 8) := rfl
  generalize f / 2 ^ k = x at *
  generalize f / 2 ^ o = y at *
  rw [xor_one]
  split <;> omega

/-- What level `j` sets is what `Merges` says the loop itself has set. -/
theorem merges_setRun (hl : st.Layout) (hin : f / 2 ^ o < (st.buddyBitmaps o).numBits)
    (hj : f / 2 ^ j + 2 ^ (o - j) ≤ st.cap j) (hk : j < k) :
    (st.setRun j (f / 2 ^ j) (2 ^ (o - j))).Merges o f k ↔ st.Merges o f k := by
  simp only [Merges]
  rcases Nat.lt_trichotomy j o with h | rfl | h
  · rw [hl.setRun_bit_above hj h]
  · rw [hl.setRun_bit hj (buddy_lt_cap hin hk.le), Nat.sub_self, pow_zero, Bool.or_eq_true,
      decide_eq_true_eq]
    constructor
    · rintro ((h | h) | h)
      · exact .inr ⟨hk, by omega⟩
      · exact .inl h
      · exact .inr h
    · exact fun h => h.imp_left .inr
  · rw [hl.setRun_bit_below h (buddy_lt_cap hin (h.trans hk).le)]

theorem bit_buddy_iff (hl : st.Layout) (hin : f / 2 ^ o < (st.buddyBitmaps o).numBits)
    (hj : f / 2 ^ j + 2 ^ (o - j) ≤ st.cap j) (hown : o < j → st.bit o (f / 2 ^ o) = true) :
    (st.setRun j (f / 2 ^ j) (2 ^ (o - j))).bit o (f / 2 ^ j ^^^ 1) = true ↔
      st.Merges o f j := by
  simp only [Merges]
  rcases Nat.lt_trichotomy j o with h | rfl | h
  · rw [hl.setRun_bit_above hj h]
    exact ⟨.inl, fun h' => h'.resolve_right fun h' => h.not_gt h'.1⟩
  · rw [hl.setRun_bit hj (buddy_lt_cap hin (le_refl j)), Nat.sub_self, pow_zero,
      decide_eq_false, Bool.false_or]
    · simp
    · have := child_cases (n := f / 2 ^ j) rfl
      omega
  · rw [hl.setRun_bit_below h (buddy_lt_cap hin h.le)]
    exact ⟨.inl, fun h' => h'.elim id fun h' => by rw [h'.2, hown h]⟩

def FreeFits (st : FrameState) (o f j n : Nat) : Prop :=
  ∀ k, j ≤ k → k < j + n → (∀ l, j ≤ l → l < k → st.Merges o f l) →
    f / 2 ^ k + 2 ^ (o - k) ≤ st.cap k

theorem FreeFits.first (h : FreeFits st o f j (n + 1)) : f / 2 ^ j + 2 ^ (o - j) ≤ st.cap j :=
  h j (le_refl j) (by omega) fun l h1 h2 => absurd h1 h2.not_ge

/-- The loop state after level `j`, whose test found a free bit. -/
structure MergeStep (st st' : FrameState) (o f j n : Nat) : Prop where
  layout : st'.Layout
  inside : f / 2 ^ o < (st'.buddyBitmaps o).numBits
  fits : FreeFits st' o f (j + 1) n
  own : o < j + 1 → st'.bit o (f / 2 ^ o) = true
  merges : ∀ k, j < k → (st'.Merges o f k ↔ st.Merges o f k)

theorem FreeFits.step (hl : st.Layout) (hin : f / 2 ^ o < (st.buddyBitmaps o).numBits)
    (h : FreeFits st o f j (n + 1)) (hown : o < j → st.bit o (f / 2 ^ o) = true)
    (hj : st.Merges o f j) :
    MergeStep st ((st.setRun j (f / 2 ^ j) (2 ^ (o - j))).touch o x) o f j n := by
  have hmerges : ∀ k, j < k → (((st.setRun j (f / 2 ^ j) (2 ^ (o - j))).touch o x).Merges o f k ↔
      st.Merges o f k) := fun k hk => merges_setRun hl hin h.first hk
  refine ⟨hl.setRun.touch, by simpa using hin, ?_, ?_, hmerges⟩
  · intro k hk hkn hreach
    rw [touch_cap, setRun_cap]
    refine h k (by omega) (by omega) fun l h1 h2 => ?_
    rcases h1.eq_or_lt with rfl | h1
    · exact hj
    · exact (hmerges l h1).mp (hreach l h1 h2)
  · intro ho
    have hcap : f / 2 ^ o < st.cap o := hin.trans_le (numBits_le_cap st o)
    rw [touch_bit, hl.setRun_bit h.first hcap, Bool.or_eq_true, decide_eq_true_eq]
    rcases Nat.lt_or_ge o j with ho' | ho'
    · exact .inr (hown ho')
    · obtain rfl : o = j := by omega
      exact .inl ⟨rfl, covers_first⟩

theorem mergeFree_bit (hl : st.Layout) (hin : f / 2 ^ o < (st.buddyBitmaps o).numBits)
    (hfit : FreeFits st o f j n) (hown : o < j → st.bit o (f / 2 ^ o) = true)
    (hm : m < st.cap J) :
    (mergeFree o f (List.range' j n) st).bit J m = true ↔ st.bit J m = true ∨
      (j ≤ J ∧ J < j + n ∧ (∀ l, j ≤ l → l < J → st.Merges o f l) ∧ Covers o f J m) := by
  induction n generalizing j st with
  | zero =>
    simp only [List.range'_zero, mergeFree]
    exact ⟨.inl, fun h => h.elim id fun h => by omega⟩
  | succ n ih =>
    simp only [List.range'_succ, mergeFree, isBitSet_eq, width_eq, Nat.shiftRight_eq_div_pow,
      bit_buddy_iff hl hin hfit.first hown]
    have hset : (st.setRun j (f / 2 ^ j) (2 ^ (o - j))).bit J m = true ↔
        (J = j ∧ Covers o f J m) ∨ st.bit J m = true := by
      rw [hl.setRun_bit hfit.first hm, Bool.or_eq_true, decide_eq_true_eq]
      exact or_congr_left (and_congr_right fun h => by rw [h, Covers])
    split
    · rename_i hj
      obtain ⟨hl', hin', hfit', hown', hmerges⟩ := hfit.step hl hin hown hj
      rw [ih hl' hin' hfit' hown' (by simpa using hm), touch_bit, hset]
      constructor
      · rintro ((⟨rfl, h⟩ | h) | ⟨h1, h2, h3, h4⟩)
        · exact .inr ⟨le_refl _, by omega, fun l h1 h2 => by omega, h⟩
        · exact .inl h
        · refine .inr ⟨by omega, by omega, fun l hl hlJ => ?_, h4⟩
          rcases hl.eq_or_lt with rfl | hl
          · exact hj
          · exact (hmerges l hl).mp (h3 l hl hlJ)
      · rintro (h | ⟨h1, h2, h3, h4⟩)
        · exact .inl (.inr h)
        · rcases h1.eq_or_lt with rfl | h1
          · exact .inl (.inl ⟨rfl, h4⟩)
          · exact .inr ⟨h1, by omega,
              fun l hl hlJ => (hmerges l hl).mpr (h3 l (by omega) hlJ), h4⟩
    · rename_i hj
      rw [touch_bit, hset, or_comm]
      refine or_congr_right ⟨?_, ?_⟩
      · rintro ⟨rfl, h⟩
        exact ⟨le_refl _, by omega, fun l h1 h2 => by omega, h⟩
      · rintro ⟨h1, h2, h3, h4⟩
        rcases h1.eq_or_lt with rfl | h1
        · exact ⟨rfl, h4⟩
        · exact absurd (h3 j (le_refl j) h1) hj

theorem mergeFree_accesses (hl : st.Layout) (hin : f / 2 ^ o < (st.buddyBitmaps o).numBits)
    (hfit : FreeFits st o f j n) (hown : o < j → st.bit o (f / 2 ^ o) = true)
    (h : a ∈ (mergeFree o f (List.range' j n) st).accesses) :
    a ∈ st.accesses ∨ (j ≤ a.order ∧ a.order < j + n ∧ a.index < st.cap a.order) ∨
      ∃ k, j ≤ k ∧ k < j + n ∧ (∀ l, j ≤ l → l < k → st.Merges o f l) ∧
        a = ⟨o, f / 2 ^ k ^^^ 1⟩ := by
  induction n generalizing j st with
  | zero => exact .inl h
  | succ n ih =>
    simp only [List.range'_succ, mergeFree, isBitSet_eq, width_eq, Nat.shiftRight_eq_div_pow,
      bit_buddy_iff hl hin hfit.first hown] at h
    have hlevel : a ∈ ((st.setRun j (f / 2 ^ j) (2 ^ (o - j))).touch o
        (f / 2 ^ j ^^^ 1)).accesses → a ∈ st.accesses ∨
        (j ≤ a.order ∧ a.order < j + (n + 1) ∧ a.index < st.cap a.order) ∨
        ∃ k, j ≤ k ∧ k < j + (n + 1) ∧ (∀ l, j ≤ l → l < k → st.Merges o f l) ∧
          a = ⟨o, f / 2 ^ k ^^^ 1⟩ := by
      intro ha
      rcases List.mem_cons.mp ha with rfl | ha
      · exact .inr (.inr ⟨j, le_refl j, by omega, fun l h1 h2 => by omega, rfl⟩)
      · rcases setRun_accesses ha with ha | ⟨rfl, -, h2⟩
        · exact .inl ha
        · exact .inr (.inl ⟨le_refl _, by omega, h2.trans_le hfit.first⟩)
    split at h
    · rename_i hj
      obtain ⟨hl', hin', hfit', hown', hmerges⟩ := hfit.step hl hin hown hj
      rcases ih hl' hin' hfit' hown' h with h | ⟨h1, h2, h3⟩ | ⟨k, h1, h2, h3, rfl⟩
      · exact hlevel h
      · exact .inr (.inl ⟨by omega, by omega, by simpa using h3⟩)
      · refine .inr (.inr ⟨k, by omega, by omega, fun l hl hlk => ?_, rfl⟩)
        rcases hl.eq_or_lt with rfl | hl
        · exact hj
        · exact (hmerges l hl).mp (h3 l hl hlk)
    · exact hlevel h

end

end Shigure.Pm
