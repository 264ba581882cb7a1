import Mathlib.Order.Bounds.Basic
import Shigure.Pm.BlockRuns

/-!
# The bitmaps of all orders say what is free

Where `pfree` reads a bit that is worth as much as the buddy's own, nothing is
handed out twice and nothing is missed, so each bit of each order says whether its
block is free, and `pmalloc` takes the lowest block that is.
-/

namespace Shigure.Pm

open Buddy
open FrameState hiding mem nframes accesses

/-- A call that neither merges too much nor stops too early. -/
def PmCall.Careful (s : PmState) (c : PmCall) : Prop := c.NoOverlap s ∧ c.NoLoss s

instance : Decidable (PmCall.Careful s c) := inferInstanceAs (Decidable (_ ∧ _))

def PmState.FreeBlock (s : PmState) (j n : Nat) : Prop :=
  ∀ f ∈ Span.mk (n * 2 ^ j) (2 ^ j), s.Free f

def PmState.freeBlocks (N : Nat) (s : PmState) (j : Nat) : Set Nat :=
  {n | n < N / 2 ^ j ∧ s.FreeBlock j n}

def PmState.Exact (N : Nat) (s : PmState) : Prop :=
  ∀ j ≤ maxOrder, ∀ n < N / 2 ^ j, s.fs.bit j n = true ↔ s.FreeBlock j n

section
variable {m : Machine} {s s' : PmState} {c : PmCall} {j n N size : Nat}

theorem mul_add_le (h : n < N / 2 ^ j) : n * 2 ^ j + 2 ^ j ≤ N := by
  have hle := (Nat.le_div_iff_mul_le (Nat.two_pow_pos j)).mp (Nat.succ_le_iff.mpr h)
  rwa [Nat.succ_mul] at hle

theorem PmState.Sound.free (h : s.Sound N) (hj : j ≤ maxOrder) (hn : n < N / 2 ^ j)
    (hbit : s.fs.bit j n = true) : s.FreeBlock j n := by
  intro f hf b hb hfb
  have hin : n * 2 ^ j + 2 ^ j ≤ s.fs.nframes := by
    rw [h.nframes]
    exact mul_add_le hn
  have hzero := h.down.covers h.layout hj (Dvd.intro_left n rfl) hin (by rwa [Finds.div]) (Nat.zero_le j)
    (covers_zero.mpr hf)
  exact absurd hzero (by simp [h.used b hb f hfb])

theorem PmState.Complete.bit (h : s.Complete N) (hj : j ≤ maxOrder) (hn : n < N / 2 ^ j)
    (hfree : s.FreeBlock j n) : s.fs.bit j n = true := by
  have hle := mul_add_le hn
  have hcov : Covers j (n * 2 ^ j) j n := by
    rw [covers_above (le_refl j), Finds.div]
  refine h.up.covers h.layout hj (Dvd.intro_left n rfl) (by rwa [h.nframes]) (fun g h1 h2 => ?_)
    (le_refl j) hcov
  exact h.free g (h2.trans_le hle) (hfree g ⟨h1, h2⟩)

theorem exact_of (h : s.Sound N) (h' : s.Complete N) : s.Exact N := fun _ hj _ hn =>
  ⟨h.free hj hn, h'.bit hj hn⟩

theorem exact_of_run (h : Reach PmCall.Careful PmCall.step (boot m) s) :
    s.fs.Layout ∧ s.fs.nframes = m.nframes ∧ s.Exact m.nframes := by
  have hs : s.Sound m.nframes ∧ s.Complete m.nframes := by
    refine h.invariant (fun s => s.Sound m.nframes ∧ s.Complete m.nframes)
      ⟨boot_sound, boot_complete⟩ fun t c u ht hc hstep => ?_
    cases c with
    | pmalloc size =>
      have hb := ht.1.toBasic.step hc.1.1 hstep
      exact ⟨ht.1.pmalloc hb hc.1 hstep, ht.2.pmalloc hb hc.2 hstep⟩
    | pfree pfn size =>
      have hb := ht.1.toBasic.step hc.1.1 hstep
      exact ⟨ht.1.pfree hb hc.1 hstep, ht.2.pfree hb hc.2 hstep⟩
  exact ⟨hs.1.layout, hs.1.nframes, exact_of hs.1 hs.2⟩

theorem PmState.Exact.pmalloc (h : s.Exact N) (hl : s.fs.Layout) (hN : s.fs.nframes = N)
    (hsize : size ≤ 2 ^ maxOrder * frameSize) :
    (∃ n, IsLeast (s.freeBlocks N (getOrder size)) n ∧
      (Pm.pmalloc size s.fs).1 = ((n * 2 ^ getOrder size : Nat) : Int)) ∨
    (s.freeBlocks N (getOrder size) = ∅ ∧ (Pm.pmalloc size s.fs).1 = -1) := by
  have ho := getOrder_le hsize
  have hbits : (s.fs.buddyBitmaps (getOrder size)).numBits = N / 2 ^ getOrder size := by
    rw [hl.numBits, hN]
  rcases pmalloc_cases size s.fs with ⟨i, st', hf, -, hp⟩ | ⟨st', hnone, -, hp⟩
  · refine .inl ⟨i, ⟨⟨hbits ▸ hf.inside, (h _ ho i (hbits ▸ hf.inside)).mp hf.set⟩, ?_⟩, by rw [hp]⟩
    rintro k ⟨hk, hfree⟩
    by_contra hlt
    have hclear := hf.first k (not_le.mp hlt)
    exact absurd ((h _ ho k hk).mpr hfree) (by simp [hclear])
  · refine .inr ⟨Set.eq_empty_iff_forall_notMem.mpr ?_, by rw [hp]⟩
    rintro k ⟨hk, hfree⟩
    have hclear := hnone k (hbits ▸ hk)
    exact absurd ((h _ ho k hk).mpr hfree) (by simp [hclear])

/-- Along every careful run the bitmaps are what the live blocks leave, whatever was
taken and given back before, and the next block is the lowest free one of its order, or
there is none. -/
theorem bitmaps_say_what_is_free (h : Reach PmCall.Careful PmCall.step (boot m) s)
    (hsize : size ≤ 2 ^ maxOrder * frameSize) :
    s.Exact m.nframes ∧
    ((∃ n, IsLeast (s.freeBlocks m.nframes (getOrder size)) n ∧
      (pmalloc size s.fs).1 = ((n * 2 ^ getOrder size : Nat) : Int)) ∨
    (s.freeBlocks m.nframes (getOrder size) = ∅ ∧ (pmalloc size s.fs).1 = -1)) := by
  obtain ⟨hl, hN, hexact⟩ := exact_of_run h
  exact ⟨hexact, hexact.pmalloc hl hN hsize⟩

/-- Two blocks are taken and the first is given back. -/
theorem bitmaps_say_what_is_free_two : ∃ s : PmState, s.live.length = 1 ∧ s.Exact 128 ∧
    ∃ n, IsLeast (s.freeBlocks 128 (getOrder 0x2000)) n := by
  obtain ⟨s, hs, hlen, hr⟩ := Reach.exists_of_exec PmCall.Careful PmCall.step
    (boot machine128) (fun s => s.live.length = 1 ∧ (pmalloc 0x2000 s.fs).1 ≠ -1)
    [.pmalloc 0x1000, .pmalloc 0x1000, .pfree 0 0x1000] (by decide +kernel)
  obtain ⟨hexact, ⟨n, hn, -⟩ | ⟨-, hnone⟩⟩ :=
    bitmaps_say_what_is_free hs (show 0x2000 ≤ 2 ^ maxOrder * frameSize by decide)
  · exact ⟨s, hlen, hexact, n, hn⟩
  · exact absurd hnone hr

end

end Shigure.Pm
