import Mathlib.Order.Bounds.Basic
import Shigure.Pm.Runs

/-!
# Single frames

`alloc_frame` and `free_frame` only ever ask for one frame. What they see is
the order-0 bitmap, which neither loop disturbs at a higher order: the
allocator is then a plain set of frames, out of which the smallest is taken.
-/

namespace Shigure.Pm

open Buddy
open FrameState hiding mem nframes accesses

/-- The calls that `alloc_frame` and `free_frame` make. -/
def PmCall.Single (s : PmState) : PmCall → Prop
  | .pmalloc size => size = frameSize
  | .pfree pfn size => size = frameSize ∧ ⟨pfn, size⟩ ∈ s.live

instance : (c : PmCall) → Decidable (PmCall.Single s c)
  | .pmalloc _ => inferInstanceAs (Decidable (_ = _))
  | .pfree _ _ => inferInstanceAs (Decidable (_ ∧ _))

def PmState.held (s : PmState) : Set Nat := {f | ⟨f, frameSize⟩ ∈ s.live}

/-- A frame is available when the order-0 bitmap says so. -/
def Available (st : FrameState) (f : Nat) : Prop := f < st.nframes ∧ st.bit 0 f = true

-- ---------------------------------------------------------------------------
-- The order-0 bitmap
-- ---------------------------------------------------------------------------

section
variable {m : Machine} {st st' : FrameState} {s s' : PmState} {c : PmCall} {f g i N : Nat}

theorem Layout.lt_cap_zero (hl : st.Layout) (hf : f < st.nframes) : f < st.cap 0 := by
  have := numBits_le_cap st 0
  rw [hl.numBits, pow_zero, Nat.div_one] at this
  omega

theorem markUsed_zero (hl : st.Layout) (hb : st.bit 0 i = true) (hi : i < st.nframes)
    (hg : g < st.nframes) :
    (markUsed 0 i orders st).bit 0 g = true ↔ st.bit 0 g = true ∧ g ≠ i := by
  have hgc := Layout.lt_cap_zero hl hg
  have hfit : i + 1 ≤ st.cap 0 := Layout.lt_cap_zero hl hi
  have h0 : startIndex 0 i 0 = i := rfl
  have hw : width 0 0 = 1 := rfl
  rw [orders_eq, List.range'_succ, markUsed]
  simp only [isBitSet_eq, h0, hw, hb, ↓reduceIte]
  rw [markUsed_bit_below hl.touch.clearRun (by simp; omega) (by simpa using hgc),
    hl.touch.clearRun_bit hfit (by simpa using hgc), touch_bit]
  simp only [true_and, Bool.and_eq_true, Bool.not_eq_true', decide_eq_false_iff_not]
  constructor
  · rintro ⟨h1, h2⟩
    exact ⟨h2, by omega⟩
  · rintro ⟨h1, h2⟩
    exact ⟨by omega, h1⟩

theorem pfree_zero (hl : st.Layout) (hf : f < st.nframes) (hg : g < st.nframes) :
    (pfree f frameSize st).bit 0 g = true ↔ st.bit 0 g = true ∨ g = f := by
  have hgc := Layout.lt_cap_zero hl hg
  have hfit : f + 1 ≤ st.cap 0 := Layout.lt_cap_zero hl hf
  have hset : (st.setRun 0 f 1).bit 0 g = true ↔ st.bit 0 g = true ∨ g = f := by
    rw [hl.setRun_bit hfit hgc, Bool.or_eq_true, decide_eq_true_eq, or_comm]
    exact or_congr_right (by omega)
  have hw : width 0 0 = 1 := rfl
  rw [pfree, getOrder_frameSize, orders_eq, List.range'_succ, mergeFree]
  simp only [isBitSet_eq, Nat.shiftRight_zero, hw]
  split
  · rw [mergeFree_bit_below hl.setRun.touch (by simp; omega) (by simpa using hgc), touch_bit, hset]
  · rw [touch_bit, hset]

theorem finds_zero (hl : st.Layout) (h : Finds st 0 i) :
    IsLeast {f | Available st f} i := by
  have hi : i < st.nframes := by simpa [hl.numBits] using h.inside
  refine ⟨⟨hi, h.set⟩, fun f hf => ?_⟩
  by_contra hlt
  exact absurd hf.2 (by simp [h.first f (by omega)])

theorem pmalloc_zero (hl : st.Layout) :
    (∃ i, IsLeast {f | Available st f} i ∧ (pmalloc frameSize st).1 = i ∧
      ∀ g < st.nframes, (pmalloc frameSize st).2.bit 0 g = true ↔ st.bit 0 g = true ∧ g ≠ i) ∨
    ((∀ f, ¬ Available st f) ∧ (pmalloc frameSize st).1 = -1 ∧
      ∀ g, (pmalloc frameSize st).2.bit 0 g = st.bit 0 g) := by
  rcases pmalloc_cases frameSize st with ⟨i, st', hf, hs, h⟩ | ⟨st', hnone, hs, h⟩ <;>
    simp only [getOrder_frameSize] at *
  · have hleast := finds_zero hl hf
    refine .inl ⟨i, hleast, by simp [h], fun g hg => ?_⟩
    rw [h, markUsed_zero (hs.layout hl) (by rw [hs.bit, hf.set])
      (by rw [hs.nframes]; exact hleast.1.1) (by rwa [hs.nframes]), hs.bit]
  · refine .inr ⟨fun f hav => ?_, by rw [h], fun g => by rw [h, hs.bit]⟩
    have := hnone f (by simpa [hl.numBits] using hav.1)
    exact absurd hav.2 (by simp [this])

/-- What the callers for single frames see. -/
def freeFrames (st : FrameState) : Set Nat := {f | Available st f}

theorem pmalloc_nframes (size : Nat) (st : FrameState) :
    (pmalloc size st).2.nframes = st.nframes := by
  rcases pmalloc_cases size st with ⟨i, st', -, hs, h⟩ | ⟨st', -, hs, h⟩ <;> rw [h]
  · exact markUsed_nframes.trans hs.nframes
  · exact hs.nframes

theorem Layout.pmalloc (hl : st.Layout) (size : Nat) : (pmalloc size st).2.Layout := by
  rcases pmalloc_cases size st with ⟨i, st', -, hs, h⟩ | ⟨st', -, hs, h⟩ <;> rw [h]
  · exact (hs.layout hl).congr markUsed_buddyBitmaps markUsed_nframes
  · exact hs.layout hl

theorem Layout.pfree (hl : st.Layout) (pfn size : Nat) : (pfree pfn size st).Layout :=
  hl.congr pfree_buddyBitmaps pfree_nframes

theorem pmalloc_freeFrames (hl : st.Layout) :
    (∃ i, IsLeast (freeFrames st) i ∧ (pmalloc frameSize st).1 = i ∧
      freeFrames (pmalloc frameSize st).2 = freeFrames st \ {i}) ∨
    (freeFrames st = ∅ ∧ (pmalloc frameSize st).1 = -1 ∧
      freeFrames (pmalloc frameSize st).2 = ∅) := by
  rcases pmalloc_zero hl with ⟨i, hi, hr, hbit⟩ | ⟨hnone, hr, hbit⟩
  · refine .inl ⟨i, hi, hr, Set.ext fun g => ?_⟩
    simp only [freeFrames, Available, Set.mem_ofPred_eq, Set.mem_sdiff, Set.mem_singleton_iff,
      pmalloc_nframes, and_assoc]
    exact and_congr_right fun hg => hbit g hg
  · refine .inr ⟨Set.eq_empty_of_forall_notMem hnone, hr, Set.eq_empty_of_forall_notMem ?_⟩
    rintro g ⟨hg, hb⟩
    rw [pmalloc_nframes] at hg
    exact hnone g ⟨hg, hbit g ▸ hb⟩

theorem pfree_freeFrames (hl : st.Layout) (hf : f < st.nframes) :
    freeFrames (pfree f frameSize st) = insert f (freeFrames st) := by
  ext g
  simp only [freeFrames, Available, Set.mem_ofPred_eq, Set.mem_insert_iff, pfree_nframes]
  constructor
  · rintro ⟨hg, hb⟩
    exact ((pfree_zero hl hf hg).mp hb).symm.imp_right fun h => ⟨hg, h⟩
  · rintro (rfl | ⟨hg, hb⟩)
    · exact ⟨hf, (pfree_zero hl hf hf).mpr (.inr rfl)⟩
    · exact ⟨hg, (pfree_zero hl hf hg).mpr (.inl hb)⟩

-- ---------------------------------------------------------------------------
-- Runs
-- ---------------------------------------------------------------------------

/-- The frames in use are those the order-0 bitmap does not offer. -/
structure PmState.IsSet (N : Nat) (s : PmState) : Prop where
  layout : s.fs.Layout
  nframes : s.fs.nframes = N
  nodup : s.live.Nodup
  frames : ∀ b ∈ s.live, b.size = frameSize ∧ b.pfn < N
  available : ∀ f < N, s.fs.bit 0 f = true ↔ f ∉ s.held

theorem boot_isSet : (boot m).IsSet m.nframes where
  layout := boot_layout
  nframes := rfl
  nodup := List.nodup_nil
  frames b hb := by cases hb
  available f hf := by
    rw [boot_bit (Nat.zero_le _) (Layout.lt_cap_zero boot_layout hf)]
    simp [PmState.held, boot]

theorem PmState.IsSet.step_pmalloc (hs : s.IsSet N)
    (h : PmCall.step s (.pmalloc frameSize) = some s') : s'.IsSet N := by
  rcases pmalloc_step_cases h with ⟨i, st', hf, hst, rfl⟩ | ⟨st', hst, rfl⟩ <;>
    simp only [getOrder_frameSize] at *
  · have hi : i < N := by simpa [hs.layout.numBits, hs.nframes] using hf.inside
    have hnew : i ∉ s.held := (hs.available i hi).mp hf.set
    rw [pow_zero, Nat.mul_one]
    refine ⟨(hst.layout hs.layout).congr markUsed_buddyBitmaps markUsed_nframes,
      (markUsed_nframes.trans hst.nframes).trans hs.nframes,
      List.nodup_cons.mpr ⟨hnew, hs.nodup⟩, fun b hb => ?_, fun f hfN => ?_⟩
    · rcases List.mem_cons.mp hb with rfl | hb
      · exact ⟨rfl, hi⟩
      · exact hs.frames b hb
    · rw [markUsed_zero (hst.layout hs.layout) (by rw [hst.bit, hf.set])
        (by rwa [hst.nframes, hs.nframes]) (by rwa [hst.nframes, hs.nframes]), hst.bit,
        hs.available f hfN]
      simp [PmState.held, and_comm]
  · refine ⟨hst.layout hs.layout, hst.nframes.trans hs.nframes, hs.nodup, hs.frames,
      fun f hfN => ?_⟩
    rw [hst.bit, hs.available f hfN]
    rfl

theorem PmState.IsSet.step_pfree (hs : s.IsSet N) (hf : f ∈ s.held)
    (h : PmCall.step s (.pfree f frameSize) = some s') :
    s'.IsSet N ∧ s'.held = s.held \ {f} := by
  obtain rfl := Option.some.inj h
  have hfN : f < N := (hs.frames _ hf).2
  have hheld : PmState.held ⟨pfree f frameSize s.fs, s.live.erase ⟨f, frameSize⟩⟩ =
      s.held \ {f} := by
    ext g
    simp [PmState.held, hs.nodup.mem_erase_iff, and_comm]
  refine ⟨⟨hs.layout.congr pfree_buddyBitmaps pfree_nframes,
    pfree_nframes.trans hs.nframes, hs.nodup.erase _,
    fun b hb => hs.frames b (List.mem_of_mem_erase hb), fun g hg => ?_⟩, hheld⟩
  rw [hheld, pfree_zero hs.layout (by rwa [hs.nframes]) (by rwa [hs.nframes]),
    hs.available g hg, Set.mem_sdiff, Set.mem_singleton_iff]
  tauto

theorem PmState.IsSet.step (hs : s.IsSet N) (hc : c.Single s) (h : c.step s = some s') :
    s'.IsSet N := by
  cases c with
  | pmalloc size =>
    obtain rfl := hc
    exact hs.step_pmalloc h
  | pfree pfn size =>
    obtain ⟨rfl, hf⟩ := hc
    exact (hs.step_pfree hf h).1

theorem PmState.IsSet.available_iff (hs : s.IsSet N) :
    Available s.fs f ↔ f < N ∧ f ∉ s.held := by
  rw [Available, hs.nframes]
  exact and_congr_right fun h => hs.available f h

/-- Along any run of single-frame calls the allocator is a set of frames:
`pmalloc` takes the smallest one that is not in use and fails only when all
are, and `pfree` makes one frame available again and no other. -/
theorem single_frames_are_a_set (h : Reach PmCall.Single PmCall.step (boot m) s) :
    (∀ f, Available s.fs f ↔ f < m.nframes ∧ f ∉ s.held) ∧
    (∀ f : Nat, (pmalloc frameSize s.fs).1 = f ↔
      IsLeast {g | g < m.nframes ∧ g ∉ s.held} f) ∧
    ((pmalloc frameSize s.fs).1 = -1 ↔ ∀ f < m.nframes, f ∈ s.held) ∧
    (∀ g, Available (pmalloc frameSize s.fs).2 g ↔
      Available s.fs g ∧ (pmalloc frameSize s.fs).1 ≠ g) ∧
    (∀ f ∈ s.held, ∀ g, Available (pfree f frameSize s.fs) g ↔ Available s.fs g ∨ g = f) := by
  have hs : s.IsSet m.nframes :=
    h.invariant _ boot_isSet fun _ _ _ ht hc hstep => ht.step hc hstep
  have hav : ∀ f, Available s.fs f ↔ f < m.nframes ∧ f ∉ s.held := fun f => hs.available_iff
  have hset : {f | Available s.fs f} = {g | g < m.nframes ∧ g ∉ s.held} := Set.ext hav
  have hn : (pmalloc frameSize s.fs).2.nframes = s.fs.nframes := by
    rcases pmalloc_cases frameSize s.fs with ⟨i, st', -, hst, h⟩ | ⟨st', -, hst, h⟩ <;> rw [h]
    · exact markUsed_nframes.trans hst.nframes
    · exact hst.nframes
  refine ⟨hav, ?_, ?_, ?_, ?_⟩
  · intro f
    rcases pmalloc_zero hs.layout with ⟨i, hi, hr, -⟩ | ⟨hnone, hr, -⟩ <;> rw [hset.symm, hr]
    · exact ⟨fun h => by rwa [← Int.ofNat.inj h], fun h => by rw [h.unique hi]⟩
    · exact iff_of_false (by omega) fun h => hnone f h.1
  · rcases pmalloc_zero hs.layout with ⟨i, hi, hr, -⟩ | ⟨hnone, hr, -⟩ <;> rw [hr]
    · obtain ⟨hlt, hfree⟩ := (hav i).mp hi.1
      exact iff_of_false (by omega) fun h => hfree (h i hlt)
    · refine iff_of_true rfl fun f hf => ?_
      by_contra hfree
      exact hnone f ((hav f).mpr ⟨hf, hfree⟩)
  · intro g
    rw [Available, hn]
    rcases pmalloc_zero hs.layout with ⟨i, -, hr, hbit⟩ | ⟨-, hr, hbit⟩ <;> rw [hr]
    · rw [Available, and_assoc]
      refine and_congr_right fun hg => (hbit g hg).trans (and_congr_right fun _ => ?_)
      exact ⟨fun h h' => h (Int.ofNat.inj h').symm, fun h h' => h (by rw [h'])⟩
    · rw [hbit]
      exact ⟨fun h => ⟨h, by omega⟩, fun h => h.1⟩
  · intro f hf g
    have hfN : f < s.fs.nframes := hs.nframes ▸ (hs.frames _ hf).2
    rw [Available, pfree_nframes, Available]
    constructor
    · rintro ⟨hg, hb⟩
      exact ((pfree_zero hs.layout hfN hg).mp hb).imp_left fun h => ⟨hg, h⟩
    · rintro (⟨hg, hb⟩ | rfl)
      · exact ⟨hg, (pfree_zero hs.layout hfN hg).mpr (.inl hb)⟩
      · exact ⟨hfN, (pfree_zero hs.layout hfN hfN).mpr (.inr rfl)⟩

def twoFrames : Machine := ⟨fun _ => 0#8, 0x200000, 2, by decide⟩

theorem single_frames_two : ∃ s : PmState, s.live = [⟨0, frameSize⟩] ∧
    ((pmalloc frameSize s.fs).1 = -1 ↔ ∀ f < 2, f ∈ s.held) :=
  ⟨_, by decide,
    (single_frames_are_a_set (m := twoFrames) (.tail (i := .pmalloc frameSize) .refl rfl rfl)).2.2.1⟩

end

end Shigure.Pm
