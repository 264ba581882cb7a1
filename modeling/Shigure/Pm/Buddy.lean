import Shigure.Pm.Runs

/-!
# Blocks of all orders

What one call does to the bits of every order, when it stays inside the
bitmaps. A call leaves them when it comes to an order whose bitmap is full to
its last byte with a block that lies in the partial block behind it.
-/

namespace Shigure.Pm

open Buddy
open FrameState hiding mem nframes accesses

/-- The block at frame `f` lies behind the last full block of order `j`, and
the bitmap of that order has no padding bit for it. -/
def Ragged (st : FrameState) (j f : Nat) : Prop :=
  (st.buddyBitmaps j).numBits ≤ f / 2 ^ j ∧ (st.buddyBitmaps j).numBits % 8 = 0

def MarkOk (st : FrameState) (size : Nat) : Prop :=
  ∀ i, Finds st (getOrder size) i → ∀ j ≤ maxOrder,
    st.Reached (i * 2 ^ getOrder size) j → ¬ Ragged st j (i * 2 ^ getOrder size)

def FreeOk (st : FrameState) (o f : Nat) : Prop :=
  ∀ j ≤ maxOrder, st.MergesTo o f j → ¬ Ragged st j f

-- ---------------------------------------------------------------------------
-- The conditions can be evaluated
-- ---------------------------------------------------------------------------

section
variable {st st' : FrameState} {size o f i j J m n N : Nat}

theorem finds_iff : Finds st o i ↔ (firstFree o (st.buddyBitmaps o).numBits 0 st).1 = some i := by
  constructor
  · intro h
    cases hff : (firstFree o (st.buddyBitmaps o).numBits 0 st).1 with
    | none =>
      have hclear := firstFree_none hff (Nat.zero_le i) (by simpa using h.inside)
      exact absurd h.set (by simp [hclear])
    | some k =>
      obtain ⟨-, -, h3, h4⟩ := firstFree_some hff
      rcases Nat.lt_trichotomy i k with hlt | rfl | hlt
      · exact absurd h.set (by simp [h4 i (Nat.zero_le i) hlt])
      · rfl
      · exact absurd h3 (by simp [h.first k hlt])
  · intro h
    obtain ⟨-, h2, h3, h4⟩ := firstFree_some h
    exact ⟨by simpa using h2, h3, fun k hk => h4 k (Nat.zero_le k) hk⟩

instance : Decidable (Ragged st j f) := inferInstanceAs (Decidable (_ ∧ _))

instance : Decidable (MarkOk st size) :=
  decidable_of_iff (∀ i ∈ (firstFree (getOrder size)
      (st.buddyBitmaps (getOrder size)).numBits 0 st).1, ∀ j < maxOrder + 1,
      st.Reached (i * 2 ^ getOrder size) j → ¬ Ragged st j (i * 2 ^ getOrder size)) <| by
    simp only [MarkOk, finds_iff, Option.mem_def, Nat.lt_succ_iff]

instance : Decidable (FreeOk st o f) :=
  decidable_of_iff (∀ j < maxOrder + 1, st.MergesTo o f j → ¬ Ragged st j f) <| by
    simp only [FreeOk, Nat.lt_succ_iff]

-- ---------------------------------------------------------------------------
-- Fitting
-- ---------------------------------------------------------------------------

theorem Layout.lt_numBits (hl : st.Layout) (hf : 2 ^ o ∣ f) (hin : f + 2 ^ o ≤ st.nframes)
    (hj : j ≤ o) (h : Covers o f j n) : n < (st.buddyBitmaps j).numBits := by
  rw [hl.numBits]
  exact h.lt_div hf hin hj

theorem Layout.fits (hl : st.Layout) (hf : 2 ^ o ∣ f) (hin : f + 2 ^ o ≤ st.nframes)
    (hr : ¬ Ragged st j f) : f / 2 ^ j + 2 ^ (o - j) ≤ st.cap j := by
  have hpos := Nat.two_pow_pos (o - j)
  rcases Nat.le_total j o with hj | hj
  · have hlast : Covers o f j (f / 2 ^ j + (2 ^ (o - j) - 1)) :=
      ⟨Nat.le_add_right _ _, Nat.add_lt_add_left (by omega) _⟩
    have hlt := Layout.lt_numBits hl hf hin hj hlast
    have hle := numBits_le_cap st j
    generalize f / 2 ^ j = x at *
    omega
  · rw [Nat.sub_eq_zero_of_le hj, pow_zero]
    have hle : f / 2 ^ j ≤ (st.buddyBitmaps j).numBits := by
      rw [hl.numBits]
      exact Nat.div_le_div_right (by omega)
    simp only [Ragged, not_and, cap, BuddyBitmap.bytes] at *
    generalize f / 2 ^ j = x at *
    omega

theorem MarkOk.fits (h : MarkOk st size) (hl : st.Layout) (hf : Finds st (getOrder size) i)
    (hs : Searched (getOrder size) st st') :
    MarkFits st' (getOrder size) (i * 2 ^ getOrder size) 0 (maxOrder + 1) := by
  intro k _ hk hreach
  rw [hs.cap]
  refine Layout.fits hl (Dvd.intro_left i rfl) (hf.inside_frames hl) (h i hf k (by omega) ?_)
  intro l hlk
  rw [← hs.bit]
  exact hreach l (Nat.zero_le l) hlk

theorem FreeOk.fits (h : FreeOk st o f) (hl : st.Layout) (hf : 2 ^ o ∣ f)
    (hin : f + 2 ^ o ≤ st.nframes) : FreeFits st o f 0 (maxOrder + 1) := by
  intro k _ hk hreach
  exact Layout.fits hl hf hin (h k (by omega) fun l hlk => hreach l (Nat.zero_le l) hlk)

-- ---------------------------------------------------------------------------
-- One call
-- ---------------------------------------------------------------------------

theorem pmalloc_bit (hl : st.Layout) (hf : Finds st (getOrder size) i)
    (hs : Searched (getOrder size) st st') (hok : MarkOk st size) (hJ : J ≤ maxOrder)
    (hm : m < st.cap J) :
    (markUsed (getOrder size) i orders st').bit J m = true ↔ st.bit J m = true ∧
      ¬ (st.Reached (i * 2 ^ getOrder size) (J + 1) ∧
        Covers (getOrder size) (i * 2 ^ getOrder size) J m) := by
  rw [orders_eq, markUsed_bit rfl (hs.layout hl) (hok.fits hl hf hs) (by rwa [hs.cap])]
  simp only [hs.bit, Reached]
  refine and_congr_right fun _ => not_congr ⟨fun h => ?_, fun h => ?_⟩
  · exact ⟨fun k hk => h.2.2.1 k (Nat.zero_le k) (by omega), h.2.2.2⟩
  · exact ⟨Nat.zero_le J, by omega, fun l _ hlJ => h.1 l (by omega), h.2⟩

theorem pfree_bit (hl : st.Layout) (hf : 2 ^ getOrder size ∣ f)
    (hin : f + 2 ^ getOrder size ≤ st.nframes) (hok : FreeOk st (getOrder size) f)
    (hJ : J ≤ maxOrder) (hm : m < st.cap J) :
    (pfree f size st).bit J m = true ↔ st.bit J m = true ∨
      (st.MergesTo (getOrder size) f J ∧ Covers (getOrder size) f J m) := by
  have hown := Layout.lt_numBits (n := f / 2 ^ getOrder size) hl hf hin (le_refl _) covers_first
  rw [pfree, orders_eq, mergeFree_bit hl hown (hok.fits hl hf hin) (by omega) hm]
  refine or_congr_right ⟨fun h => ?_, fun h => ?_⟩
  · exact ⟨fun k hk => h.2.2.1 k (Nat.zero_le k) hk, h.2.2.2⟩
  · exact ⟨Nat.zero_le J, by omega, fun l _ hlJ => h.1 l hlJ, h.2⟩

theorem Layout.child_lt (hl : st.Layout) (hn : n < (st.buddyBitmaps (j + 1)).numBits) :
    2 * n + 1 < (st.buddyBitmaps j).numBits := by
  rw [hl.half] at hn
  omega

end

end Shigure.Pm
