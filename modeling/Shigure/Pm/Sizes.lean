import Shigure.Pm.Single

/-!
# Sizes

Which sizes get a block that is large enough and no larger than it has to be.
`get_order` knows no largest order, and its sum wraps for the last sizes of all.
-/

namespace Shigure.Pm

open FrameState hiding mem nframes accesses

/-- What is expected of `pmalloc`: the order is one of the bitmaps', and a block
that is handed out is aligned, large enough, not twice as large as it has to be,
and inside the memory. -/
structure Serves (st : FrameState) (size : Nat) : Prop where
  order : getOrder size ≤ maxOrder
  result : (pmalloc size st).1 = -1 ∨ ∃ pfn : Nat, (pmalloc size st).1 = pfn ∧
    2 ^ getOrder size ∣ pfn ∧ size ≤ 2 ^ getOrder size * frameSize ∧
    (0 < getOrder size → 2 ^ (getOrder size - 1) * frameSize < size) ∧
    pfn + 2 ^ getOrder size ≤ st.nframes

/-- Any call that stays in the array of bitmaps. -/
def PmCall.InArray (s : PmState) : PmCall → Prop
  | .pmalloc size => size < wordSize ∧ getOrder size ≤ maxOrder
  | .pfree pfn size => ⟨pfn, size⟩ ∈ s.live

instance : (c : PmCall) → Decidable (PmCall.InArray s c)
  | .pmalloc _ => inferInstanceAs (Decidable (_ ∧ _))
  | .pfree _ _ => inferInstanceAs (Decidable (_ ∈ _))

section
variable {m : Machine} {st : FrameState} {s : PmState} {size n order fuel : Nat}

-- ---------------------------------------------------------------------------
-- Orders
-- ---------------------------------------------------------------------------

theorem orderLoop_spec (hn : n ≤ 2 ^ (order + fuel)) (hmore : 0 < order → 2 ^ (order - 1) < n) :
    n ≤ 2 ^ orderLoop n fuel order ∧
      (0 < orderLoop n fuel order → 2 ^ (orderLoop n fuel order - 1) < n) := by
  induction fuel generalizing order with
  | zero => exact ⟨hn, hmore⟩
  | succ fuel ih =>
    rw [orderLoop, Nat.one_shiftLeft]
    split
    · rename_i hlt
      refine ih ?_ fun _ => ?_
      · rwa [Nat.add_right_comm]
      · exact hlt
    · exact ⟨Nat.not_lt.mp ‹_›, hmore⟩

theorem getOrder_spec (h : size + (frameSize - 1) < wordSize) :
    size ≤ 2 ^ getOrder size * frameSize ∧
      (0 < getOrder size → 2 ^ (getOrder size - 1) * frameSize < size) := by
  obtain ⟨n, hn⟩ : ∃ n, n = (size + (frameSize - 1)) / frameSize := ⟨_, rfl⟩
  have horder : getOrder size = orderLoop n 32 0 := by rw [getOrder, add32_eq h, hn]
  obtain ⟨h1, h2⟩ := @orderLoop_spec n 0 32 (by simp only [frameSize, wordSize] at *; omega)
    fun h => absurd h (Nat.lt_irrefl 0)
  rw [← horder] at h1 h2
  generalize getOrder size = o at *
  generalize 2 ^ o = w at *
  generalize 2 ^ (o - 1) = v at *
  simp only [frameSize] at *
  constructor
  · omega
  · intro ho
    have := h2 ho
    omega

/-- The sum has wrapped: a single frame. -/
theorem getOrder_wrapped (h : wordSize ≤ size + (frameSize - 1)) (hs : size < wordSize) :
    getOrder size = 0 := by
  have hn : add32 size (frameSize - 1) / frameSize = 0 := by
    simp only [add32, frameSize, wordSize] at *
    omega
  rw [getOrder, hn]
  rfl

theorem maxOrder_lt (h : size + (frameSize - 1) < wordSize) (hlarge : 2 ^ maxOrder * frameSize < size) :
    maxOrder < getOrder size := by
  by_contra hle
  have hpow : 2 ^ getOrder size ≤ 2 ^ maxOrder := Nat.pow_le_pow_right (by decide) (Nat.not_lt.mp hle)
  have := (getOrder_spec h).1.trans (Nat.mul_le_mul_right frameSize hpow)
  omega

-- ---------------------------------------------------------------------------
-- One call of `pmalloc`
-- ---------------------------------------------------------------------------

theorem pmalloc_result (hl : st.Layout) (size : Nat) : (pmalloc size st).1 = -1 ∨
    ∃ pfn : Nat, (pmalloc size st).1 = pfn ∧ 2 ^ getOrder size ∣ pfn ∧
      pfn + 2 ^ getOrder size ≤ st.nframes := by
  rcases pmalloc_cases size st with ⟨i, st', hf, -, h⟩ | ⟨st', -, -, h⟩
  · refine .inr ⟨i * 2 ^ getOrder size, by rw [h], Dvd.intro_left i rfl, hf.inside_frames hl⟩
  · exact .inl (by rw [h])

theorem serves_of_fits (hl : st.Layout) (h : size ≤ 2 ^ maxOrder * frameSize) : Serves st size := by
  obtain ⟨henough, htight⟩ := getOrder_spec (show size + (frameSize - 1) < wordSize by
    simp only [maxOrder, frameSize, wordSize] at *; omega)
  refine ⟨getOrder_le h, ?_⟩
  rcases pmalloc_result hl size with hnone | ⟨pfn, hr, hdvd, hin⟩
  · exact .inl hnone
  · exact .inr ⟨pfn, hr, hdvd, henough, htight, hin⟩

theorem layout_of_reach (h : Reach PmCall.InArray PmCall.step (boot m) s) : s.fs.Layout := by
  refine h.invariant (fun s => s.fs.Layout) boot_layout fun s c s' hl _ hs => ?_
  cases c with
  | pmalloc size =>
    obtain rfl := Option.some.inj hs
    exact Layout.pmalloc hl size
  | pfree pfn size =>
    obtain rfl := Option.some.inj hs
    exact Layout.pfree hl pfn size

/-- A request of more bytes than the largest block has is under-served or leaves the
array, unless it looks like one for a single frame and there is none. -/
theorem request_served_iff (h : Reach PmCall.InArray PmCall.step (boot m) s) (hs : size < wordSize) :
    Serves s.fs size ↔ size ≤ 2 ^ maxOrder * frameSize ∨
      wordSize - frameSize < size ∧ freeFrames s.fs = ∅ := by
  have hl := layout_of_reach h
  by_cases hfit : size ≤ 2 ^ maxOrder * frameSize
  · exact iff_of_true (serves_of_fits hl hfit) (.inl hfit)
  · rw [or_iff_right hfit]
    by_cases hwrap : wordSize ≤ size + (frameSize - 1)
    · have hzero := getOrder_wrapped hwrap hs
      have hlast : wordSize - frameSize < size := by
        simp only [frameSize, wordSize] at *
        omega
      have hsame : pmalloc size s.fs = pmalloc frameSize s.fs := by
        rw [pmalloc, pmalloc, hzero, getOrder_frameSize]
      rw [and_iff_right hlast]
      rcases pmalloc_freeFrames hl with ⟨i, hi, hr, -⟩ | ⟨hempty, hr, -⟩
      · refine iff_of_false (fun hserves => ?_) fun hempty => ?_
        · rcases hserves.result with hnone | ⟨pfn, -, -, henough, -⟩
          · rw [hsame, hr] at hnone
            omega
          · rw [hzero, pow_zero, Nat.one_mul] at henough
            simp only [frameSize, wordSize] at *
            omega
        · rw [hempty] at hi
          exact hi.1
      · refine iff_of_true ⟨?_, .inl ?_⟩ hempty
        · rw [hzero]
          exact Nat.zero_le _
        · rw [hsame, hr]
    · refine iff_of_false (fun hserves => ?_) fun hlast => ?_
      · exact absurd hserves.order (Nat.not_le.mpr (maxOrder_lt (Nat.not_le.mp hwrap) (Nat.not_le.mp hfit)))
      · have := hlast.1
        simp only [frameSize, wordSize] at *
        omega

/-- The largest block, of a machine with 200 frames. -/
theorem request_served_largest :
    ∃ s : PmState, Reach PmCall.InArray PmCall.step (boot ⟨fun _ => 0#8, 0x200000, 200, by decide⟩) s ∧
      s.live = [⟨0, frameSize⟩] ∧ Serves s.fs 0x80000 := by
  obtain ⟨s, hr, hlive⟩ := Reach.exists_of_exec PmCall.InArray PmCall.step
    (boot ⟨fun _ => 0#8, 0x200000, 200, by decide⟩) (fun s => s.live = [⟨0, frameSize⟩])
    [.pmalloc frameSize] (by decide +kernel)
  exact ⟨s, hr, hlive, (request_served_iff hr (by decide)).mpr (.inl (by decide))⟩

/-- A request of 1 MiB reads the bitmap behind the last one. -/
theorem request_leaves_array : ¬ ∀ (m : Machine) (s : PmState) (size : Nat),
    Reach PmCall.InArray PmCall.step (boot m) s → size < wordSize → Serves s.fs size := by
  intro hall
  have hserves := hall ⟨fun _ => 0#8, 0x200000, 200, by decide⟩ _ 0x100000 .refl (by decide)
  exact absurd hserves.order (by decide +kernel)

end

end Shigure.Pm
