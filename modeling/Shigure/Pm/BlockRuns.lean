import Shigure.Pm.Buddy

/-!
# Runs with blocks of all orders

Blocks of all sizes, asked for and given back in any order. Three things are
expected of such a run: no frame is handed out twice, no free block is missed,
and no access leaves its bitmap. `pfree` breaks each of them, because it reads
the bitmap of the freed block's own order at every level: it goes on where the
buddy is in use, stops where it is free, and reads past the end. Each holds
along the runs that stay clear of that.
-/

namespace Shigure.Pm

open Buddy
open FrameState hiding mem nframes accesses

section
variable {m : Machine} {st st' : FrameState} {s s' : PmState} {c : PmCall} {b : Block}
  {size o f i j J n N : Nat}

-- ---------------------------------------------------------------------------
-- No frame is handed out twice
-- ---------------------------------------------------------------------------

/-- Above its own order, the merging loop goes on only where the buddy of that
order is free. -/
def NoOverMerge (st : FrameState) (o f : Nat) : Prop :=
  ∀ j < maxOrder, o < j → st.MergesTo o f (j + 1) →
    f / 2 ^ (j + 1) < (st.buddyBitmaps (j + 1)).numBits → st.bit j (f / 2 ^ j ^^^ 1) = true

instance : Decidable (NoOverMerge st o f) := inferInstanceAs (Decidable (∀ j < maxOrder, _))

def PmCall.NoOverlap (s : PmState) : PmCall → Prop
  | .pmalloc size => PmCall.Legal s (.pmalloc size) ∧ MarkOk s.fs size
  | .pfree pfn size => PmCall.Legal s (.pfree pfn size) ∧ FreeOk s.fs (getOrder size) pfn ∧
      NoOverMerge s.fs (getOrder size) pfn

instance : (c : PmCall) → Decidable (PmCall.NoOverlap s c)
  | .pmalloc _ => inferInstanceAs (Decidable (_ ∧ _))
  | .pfree _ _ => inferInstanceAs (Decidable (_ ∧ _ ∧ _))

def DownClosed (st : FrameState) : Prop :=
  ∀ j < maxOrder, ∀ n < (st.buddyBitmaps (j + 1)).numBits,
    st.bit (j + 1) n = true → st.bit j (2 * n) = true ∧ st.bit j (2 * n + 1) = true

theorem DownClosed.half (h : DownClosed st) (hj : j < maxOrder)
    (hn : n / 2 < (st.buddyBitmaps (j + 1)).numBits) (hb : st.bit (j + 1) (n / 2) = true) :
    st.bit j n = true := by
  obtain ⟨h0, h1⟩ := h j hj _ hn hb
  rcases child_cases (n := n) rfl with ⟨he, -⟩ | ⟨he, -⟩
  · rwa [← he] at h0
  · rwa [← he] at h1

theorem DownClosed.covers (h : DownClosed st) (hl : st.Layout) (ho : o ≤ maxOrder)
    (hf : 2 ^ o ∣ f) (hin : f + 2 ^ o ≤ st.nframes) (hb : st.bit o (f / 2 ^ o) = true)
    (hj : j ≤ o) (hc : Covers o f j n) : st.bit j n = true := by
  induction hj using Nat.decreasingInduction generalizing n with
  | self => rwa [(covers_above (le_refl o)).mp hc]
  | of_succ k hk ih =>
    have hc' := hc.half hf
    exact h.half (by omega) (Layout.lt_numBits hl hf hin hk hc') (ih hc')

structure PmState.Sound (N : Nat) (s : PmState) : Prop extends s.Basic N where
  down : DownClosed s.fs
  used : ∀ b ∈ s.live, ∀ f ∈ b.frames, s.fs.bit 0 f = false
  disjoint : s.live.Pairwise fun a b => a.frames.Disjoint b.frames

theorem boot_sound : (boot m).Sound m.nframes where
  toBasic := boot_basic
  down j hj n hn _ := by
    have hlt := Layout.child_lt boot_layout hn
    have hcap := numBits_le_cap (boot m).fs j
    exact ⟨boot_bit hj.le (by omega), boot_bit hj.le (by omega)⟩
  used b hb := by cases hb
  disjoint := List.Pairwise.nil

theorem Finds.div (i o : Nat) : i * 2 ^ o / 2 ^ o = i := Nat.mul_div_cancel _ (Nat.two_pow_pos o)

/-- Marking a block keeps every other free block whole: what contains a marked
one is marked too. -/
theorem DownClosed.pmalloc (h : DownClosed st) (hl : st.Layout) (ho : getOrder size ≤ maxOrder)
    (hf : Finds st (getOrder size) i) (hs : Searched (getOrder size) st st')
    (hok : MarkOk st size) : DownClosed (markUsed (getOrder size) i orders st') := by
  intro j hj n hn hb
  rw [markUsed_buddyBitmaps, hs.buddyBitmaps] at hn
  have hlt := Layout.child_lt hl hn
  have hcap := numBits_le_cap st j
  rw [pmalloc_bit hl hf hs hok hj (hn.trans_le (numBits_le_cap st _))] at hb
  have hdvd : 2 ^ getOrder size ∣ i * 2 ^ getOrder size := Dvd.intro_left i rfl
  have hchild : ∀ c, c / 2 = n → c < st.cap j →
      (markUsed (getOrder size) i orders st').bit j c = true := by
    intro c hc hcc
    rw [pmalloc_bit hl hf hs hok hj.le hcc]
    refine ⟨h.half hj (by rwa [hc]) (by rw [hc]; exact hb.1), fun ⟨hreach, hcov⟩ => hb.2 ⟨?_, ?_⟩⟩
    · -- the parent's own bit is the next one that the loop reads
      intro k hk
      rcases Nat.lt_succ_iff_lt_or_eq.mp hk with hk | rfl
      · exact hreach k hk
      · rcases Nat.lt_or_ge j (getOrder size) with hjo | hjo
        · exact h.covers hl ho hdvd (hf.inside_frames hl) (by rw [Finds.div]; exact hf.set) hjo
            covers_first
        · rw [covers_above hjo] at hcov
          rw [div_pow_succ, ← hcov, hc]
          exact hb.1
    · rw [← hc]
      exact hcov.half hdvd
  exact ⟨hchild _ (by omega) (by omega), hchild _ (by omega) (by omega)⟩

theorem PmState.Sound.pmalloc (h : s.Sound N) (hs : s'.Basic N)
    (hc : PmCall.NoOverlap s (.pmalloc size)) (hstep : PmCall.step s (.pmalloc size) = some s') :
    s'.Sound N := by
  obtain ⟨hlegal, hok⟩ := hc
  have ho := getOrder_le hlegal.2
  have hl := h.layout
  rcases pmalloc_step_cases hstep with ⟨i, st', hf, hst, rfl⟩ | ⟨st', hst, rfl⟩
  · have hdvd : 2 ^ getOrder size ∣ i * 2 ^ getOrder size := Dvd.intro_left i rfl
    have hin := hf.inside_frames hl
    have hfree : ∀ g ∈ Block.frames ⟨i * 2 ^ getOrder size, size⟩, s.fs.bit 0 g = true :=
      fun g hg => h.down.covers hl ho hdvd hin (by rw [Finds.div]; exact hf.set) (Nat.zero_le _)
        (covers_zero.mpr hg)
    refine ⟨hs, h.down.pmalloc hl ho hf hst hok, fun b hb g hg => ?_, ?_⟩
    · rw [← Bool.not_eq_true, pmalloc_bit hl hf hst hok (Nat.zero_le _)
        (h.frame_lt_cap ((hs.aligned b hb).lt hg))]
      rintro ⟨hbit, hnot⟩
      rcases List.mem_cons.mp hb with rfl | hb
      · refine hnot ⟨fun k hk => ?_, covers_zero.mpr hg⟩
        obtain rfl : k = 0 := by omega
        exact h.down.covers hl ho hdvd hin (by rw [Finds.div]; exact hf.set) (Nat.zero_le _)
          covers_first
      · exact absurd hbit (by simp [h.used b hb g hg])
    · refine List.pairwise_cons.mpr ⟨fun b hb => Span.disjoint_iff.mpr fun g hg hgb => ?_,
        h.disjoint⟩
      exact absurd (hfree g hg) (by simp [h.used b hb g hgb])
  · exact ⟨hs, fun j hj n hn hb => by
      simp only [hst.bit, hst.buddyBitmaps] at hn hb ⊢
      exact h.down j hj n hn hb, fun b hb g hg => by
      simp only [hst.bit]
      exact h.used b hb g hg, h.disjoint⟩

/-- Freeing a block sets no bit above one that stays clear. -/
theorem DownClosed.pfree (h : DownClosed st) (hl : st.Layout) (hf : 2 ^ getOrder size ∣ f)
    (hin : f + 2 ^ getOrder size ≤ st.nframes) (hok : FreeOk st (getOrder size) f)
    (hno : NoOverMerge st (getOrder size) f) : DownClosed (pfree f size st) := by
  intro j hj n hn hb
  rw [pfree_buddyBitmaps] at hn
  have hlt := Layout.child_lt hl hn
  have hcap := numBits_le_cap st j
  rw [pfree_bit hl hf hin hok hj (hn.trans_le (numBits_le_cap st _))] at hb
  have hchild : ∀ c, c / 2 = n → c < st.cap j → (Pm.pfree f size st).bit j c = true := by
    intro c hc hcc
    rw [pfree_bit hl hf hin hok hj.le hcc]
    rcases hb with hb | ⟨hmerge, hcov⟩
    · exact .inl (h.half hj (by rwa [hc]) (by rwa [hc]))
    · have hmerge' : st.MergesTo (getOrder size) f j := fun k hk => hmerge k (by omega)
      rcases Nat.lt_or_ge j (getOrder size) with hjo | hjo
      · exact .inr ⟨hmerge', (covers_half hf hjo).mp (by rwa [hc])⟩
      · -- of the two children one is freed, the other is its buddy
        rw [covers_above (by omega), div_pow_succ] at hcov
        rcases eq_or_ne c (f / 2 ^ j) with rfl | hne
        · exact .inr ⟨hmerge', covers_first⟩
        · have hbuddy : c = f / 2 ^ j ^^^ 1 := by
            have := child_cases (n := f / 2 ^ j) rfl
            generalize f / 2 ^ j = x at *
            omega
          subst hbuddy
          left
          rcases hjo.eq_or_lt with rfl | hjo
          · exact (hmerge _ (Nat.lt_succ_self _)).resolve_right fun h => absurd h.1 (lt_irrefl _)
          · exact hno j hj hjo hmerge (by rwa [div_pow_succ, ← hcov])
  exact ⟨hchild _ (by omega) (by omega), hchild _ (by omega) (by omega)⟩

theorem PmState.Sound.pfree (h : s.Sound N) (hs : s'.Basic N)
    (hc : PmCall.NoOverlap s (.pfree f size)) (hstep : PmCall.step s (.pfree f size) = some s') :
    s'.Sound N := by
  obtain ⟨hmem, hok, hno⟩ := hc
  obtain rfl := Option.some.inj hstep
  obtain ⟨-, hdvd, hin⟩ := h.aligned _ hmem
  rw [← h.nframes] at hin
  have hperm := List.perm_cons_erase hmem
  have hpair := (hperm.pairwise_iff fun h => h.symm).mp h.disjoint
  refine ⟨hs, h.down.pfree h.layout hdvd hin hok hno, fun b hb g hg => ?_,
    (List.pairwise_cons.mp hpair).2⟩
  have hb' := List.mem_of_mem_erase hb
  rw [← Bool.not_eq_true, pfree_bit h.layout hdvd hin hok (Nat.zero_le _)
    (h.frame_lt_cap ((h.aligned b hb').lt hg))]
  rintro (hbit | ⟨-, hcov⟩)
  · exact absurd hbit (by simp [h.used b hb' g hg])
  · have hdis := (List.pairwise_cons.mp hpair).1 b hb
    exact Span.disjoint_iff.mp hdis g (covers_zero.mp hcov) hg

/-- Along every run whose merges find the buddy of each level free, and that
meets no ragged order, the live blocks are pairwise disjoint. -/
theorem blocks_disjoint (h : Reach PmCall.NoOverlap PmCall.step (boot m) s) :
    s.live.Pairwise fun a b => a.frames.Disjoint b.frames := by
  refine (h.invariant (PmState.Sound m.nframes) boot_sound fun t c u ht hc hstep => ?_).disjoint
  cases c with
  | pmalloc size => exact ht.pmalloc (ht.toBasic.step hc.1 hstep) hc hstep
  | pfree pfn size => exact ht.pfree (ht.toBasic.step hc.1 hstep) hc hstep

/-- A machine with one block of the highest order. -/
def machine128 : Machine := ⟨fun _ => 0#8, 0x200000, 128, by decide⟩

theorem blocks_disjoint_two : ∃ s : PmState, s.live.length = 2 ∧
    s.live.Pairwise fun a b => a.frames.Disjoint b.frames := by
  obtain ⟨s, hs, hlen⟩ := Reach.exists_of_exec PmCall.NoOverlap PmCall.step
    (boot machine128) (fun s => s.live.length = 2)
    [.pmalloc 0x1000, .pmalloc 0x1000, .pfree 0 0x1000, .pmalloc 0x2000] (by decide +kernel)
  exact ⟨s, hlen, blocks_disjoint hs⟩

/-- Frames 0 to 3 are taken one by one and the first two given back. The second
merge goes on at order 1 although frames 2 and 3 are in use, so the next block
of four frames starts at frame 0. -/
theorem frame_handed_out_twice : ¬ ∀ m s, Reach PmCall.Legal PmCall.step (boot m) s →
    s.live.Pairwise fun a b => a.frames.Disjoint b.frames := by
  refine fun h => Reach.refute (s := boot machine128) [.pmalloc 0x1000, .pmalloc 0x1000,
    .pmalloc 0x1000, .pmalloc 0x1000, .pfree 0 0x1000, .pfree 1 0x1000, .pmalloc 0x4000] ?_
    (h machine128)
  decide +kernel

-- ---------------------------------------------------------------------------
-- No free block is missed
-- ---------------------------------------------------------------------------

/-- The merging loop stops only from the block's own order on, and only where
the buddy of that order is in use or the two do not make a full block. -/
def NoEarlyStop (st : FrameState) (o f : Nat) : Prop :=
  ∀ j < maxOrder, st.MergesTo o f j → ¬ st.Merges o f j →
    o ≤ j ∧ (st.bit j (f / 2 ^ j ^^^ 1) = false ∨
      (st.buddyBitmaps (j + 1)).numBits ≤ f / 2 ^ (j + 1))

instance : Decidable (NoEarlyStop st o f) := inferInstanceAs (Decidable (∀ j < maxOrder, _))

def PmCall.NoLoss (s : PmState) : PmCall → Prop
  | .pmalloc size => PmCall.Legal s (.pmalloc size) ∧ MarkOk s.fs size
  | .pfree pfn size => PmCall.Legal s (.pfree pfn size) ∧ FreeOk s.fs (getOrder size) pfn ∧
      NoEarlyStop s.fs (getOrder size) pfn

instance : (c : PmCall) → Decidable (PmCall.NoLoss s c)
  | .pmalloc _ => inferInstanceAs (Decidable (_ ∧ _))
  | .pfree _ _ => inferInstanceAs (Decidable (_ ∧ _ ∧ _))

def UpClosed (st : FrameState) : Prop :=
  ∀ j < maxOrder, ∀ n < (st.buddyBitmaps (j + 1)).numBits,
    st.bit j (2 * n) = true → st.bit j (2 * n + 1) = true → st.bit (j + 1) n = true

theorem UpClosed.covers (h : UpClosed st) (hl : st.Layout) (ho : o ≤ maxOrder)
    (hf : 2 ^ o ∣ f) (hin : f + 2 ^ o ≤ st.nframes)
    (hfree : ∀ g, f ≤ g → g < f + 2 ^ o → st.bit 0 g = true) (hj : j ≤ o)
    (hc : Covers o f j n) : st.bit j n = true := by
  induction j generalizing n with
  | zero =>
    obtain ⟨h1, h2⟩ := covers_zero.mp hc
    exact hfree n h1 h2
  | succ j ih =>
    refine h j (by omega) n (Layout.lt_numBits hl hf hin hj hc) (ih (by omega) ?_)
      (ih (by omega) ?_)
    · exact (covers_half hf hj).mp (by rwa [Nat.mul_div_cancel_left n (by decide)])
    · exact (covers_half hf hj).mp (by rwa [show (2 * n + 1) / 2 = n by omega])

structure PmState.Complete (N : Nat) (s : PmState) : Prop extends s.Basic N where
  up : UpClosed s.fs
  free : ∀ f < N, s.Free f → s.fs.bit 0 f = true

theorem boot_complete : (boot m).Complete m.nframes where
  toBasic := boot_basic
  up _ hj _ hn _ _ := boot_bit hj (hn.trans_le (numBits_le_cap _ _))
  free _ hf _ := boot_bit (Nat.zero_le _) (boot_basic.frame_lt_cap hf)

/-- Marking clears a bit only together with one below it. -/
theorem UpClosed.pmalloc (h : UpClosed st) (hl : st.Layout) (hf : Finds st (getOrder size) i)
    (hs : Searched (getOrder size) st st') (hok : MarkOk st size) :
    UpClosed (markUsed (getOrder size) i orders st') := by
  intro j hj n hn h0 h1
  rw [markUsed_buddyBitmaps, hs.buddyBitmaps] at hn
  have hlt := Layout.child_lt hl hn
  have hcap := numBits_le_cap st j
  rw [pmalloc_bit hl hf hs hok hj.le (by omega)] at h0 h1
  rw [pmalloc_bit hl hf hs hok hj (hn.trans_le (numBits_le_cap st _))]
  refine ⟨h j hj n hn h0.1 h1.1, fun ⟨hreach, hcov⟩ => ?_⟩
  have hreach' : st.Reached (i * 2 ^ getOrder size) (j + 1) := fun k hk => hreach k (by omega)
  -- the block meets one of the two children
  have hmeet : ∃ c, c / 2 = n ∧ Covers (getOrder size) (i * 2 ^ getOrder size) j c := by
    rcases Nat.lt_or_ge j (getOrder size) with hjo | hjo
    · refine ⟨2 * n, by omega, (covers_half (Dvd.intro_left i rfl) hjo).mp ?_⟩
      rwa [Nat.mul_div_cancel_left n (by decide)]
    · rw [covers_above (by omega), div_pow_succ] at hcov
      exact ⟨_, hcov.symm, covers_first⟩
  obtain ⟨c, hc, hcov'⟩ := hmeet
  rcases (show c = 2 * n ∨ c = 2 * n + 1 by omega) with rfl | rfl
  · exact h0.2 ⟨hreach', hcov'⟩
  · exact h1.2 ⟨hreach', hcov'⟩

theorem PmState.Complete.pmalloc (h : s.Complete N) (hs : s'.Basic N)
    (hc : PmCall.NoLoss s (.pmalloc size)) (hstep : PmCall.step s (.pmalloc size) = some s') :
    s'.Complete N := by
  obtain ⟨hlegal, hok⟩ := hc
  rcases pmalloc_step_cases hstep with ⟨i, st', hf, hst, rfl⟩ | ⟨st', hst, rfl⟩
  · refine ⟨hs, h.up.pmalloc h.layout hf hst hok, fun g hg hfree => ?_⟩
    rw [pmalloc_bit h.layout hf hst hok (Nat.zero_le _) (h.frame_lt_cap hg)]
    obtain ⟨hnew, hold⟩ := List.forall_mem_cons.mp hfree
    exact ⟨h.free g hg hold, fun hcov => hnew (covers_zero.mp hcov.2)⟩
  · exact ⟨hs, fun j hj n hn h0 h1 => by
      simp only [hst.bit, hst.buddyBitmaps] at hn h0 h1 ⊢
      exact h.up j hj n hn h0 h1, fun g hg hfree => by
      simp only [hst.bit]
      exact h.free g hg hfree⟩

/-- Freeing a block makes every block free that it completes. -/
theorem UpClosed.pfree (h : UpClosed st) (hl : st.Layout) (hf : 2 ^ getOrder size ∣ f)
    (hin : f + 2 ^ getOrder size ≤ st.nframes) (hok : FreeOk st (getOrder size) f)
    (hno : NoEarlyStop st (getOrder size) f) : UpClosed (pfree f size st) := by
  intro j hj n hn h0 h1
  rw [pfree_buddyBitmaps] at hn
  have hlt := Layout.child_lt hl hn
  have hcap := numBits_le_cap st j
  rw [pfree_bit hl hf hin hok hj.le (by omega)] at h0 h1
  rw [pfree_bit hl hf hin hok hj (hn.trans_le (numBits_le_cap st _))]
  -- a child that the call has set: the loop came to level `j`, and goes on
  have hset : ∀ c, c / 2 = n → st.MergesTo (getOrder size) f j → Covers (getOrder size) f j c →
      (st.bit j (c ^^^ 1) = true ∨ Covers (getOrder size) f j (c ^^^ 1)) →
      st.MergesTo (getOrder size) f (j + 1) ∧ Covers (getOrder size) f (j + 1) n := by
    intro c hc hmerge hcov hbuddy
    refine ⟨fun k hk => ?_, hc ▸ hcov.half hf⟩
    rcases Nat.lt_succ_iff_lt_or_eq.mp hk with hk | rfl
    · exact hmerge k hk
    · by_contra hstop
      obtain ⟨hko, hclear⟩ := hno k hj hmerge hstop
      rw [covers_above hko] at hcov hbuddy
      subst hcov
      rcases hclear with hclear | hout
      · rcases hbuddy with hbuddy | hbuddy
        · exact absurd hbuddy (by simp [hclear])
        · have := child_cases (n := f / 2 ^ k) rfl
          generalize f / 2 ^ k = x at *
          omega
      · rw [div_pow_succ, hc] at hout
        omega
  have hx0 : 2 * n ^^^ 1 = 2 * n + 1 := by rw [xor_one, if_pos (by omega)]
  have hx1 : (2 * n + 1) ^^^ 1 = 2 * n := by
    rw [xor_one, if_neg (by omega), Nat.add_sub_cancel]
  rcases h0 with h0 | ⟨hm, hc0⟩
  · rcases h1 with h1 | ⟨hm, hc1⟩
    · exact .inl (h j hj n hn h0 h1)
    · exact .inr (hset _ (by omega) hm hc1 (.inl (by rwa [hx1])))
  · exact .inr (hset _ (by omega) hm hc0 (by rw [hx0]; exact h1.imp_right And.right))

theorem PmState.Complete.pfree (h : s.Complete N) (hs : s'.Basic N)
    (hc : PmCall.NoLoss s (.pfree f size)) (hstep : PmCall.step s (.pfree f size) = some s') :
    s'.Complete N := by
  obtain ⟨hmem, hok, hno⟩ := hc
  obtain rfl := Option.some.inj hstep
  obtain ⟨-, hdvd, hin⟩ := h.aligned _ hmem
  rw [← h.nframes] at hin
  refine ⟨hs, h.up.pfree h.layout hdvd hin hok hno, fun g hg hfree => ?_⟩
  rw [pfree_bit h.layout hdvd hin hok (Nat.zero_le _) (h.frame_lt_cap hg)]
  by_cases hin' : g ∈ Block.frames ⟨f, size⟩
  · exact .inr ⟨fun k hk => absurd hk (Nat.not_lt_zero k), covers_zero.mpr hin'⟩
  · refine .inl (h.free g hg fun b hb hgb => ?_)
    rcases eq_or_ne b ⟨f, size⟩ with rfl | hne
    · exact hin' hgb
    · exact hfree b ((List.mem_erase_of_ne hne).mpr hb) hgb

/-- An aligned run of frames, as large as a block of the size, that no live
block touches. -/
def PmState.HasRoom (N : Nat) (s : PmState) (size : Nat) : Prop :=
  ∃ f, 2 ^ getOrder size ∣ f ∧ f + 2 ^ getOrder size ≤ N ∧
    ∀ g ∈ Span.mk f (2 ^ getOrder size), s.Free g

/-- Along every run whose merges stop only at a buddy in use, and that meets no
ragged order, `pmalloc` fails only when there is no room. -/
theorem no_block_missed (h : Reach PmCall.NoLoss PmCall.step (boot m) s)
    (hsize : size ≤ 2 ^ maxOrder * frameSize) (hr : (pmalloc size s.fs).1 = -1) :
    ¬ s.HasRoom m.nframes size := by
  have hs : s.Complete m.nframes := h.invariant _ boot_complete fun t c u ht hc hstep => by
    cases c with
    | pmalloc size => exact ht.pmalloc (ht.toBasic.step hc.1 hstep) hc hstep
    | pfree pfn size => exact ht.pfree (ht.toBasic.step hc.1 hstep) hc hstep
  rintro ⟨f, hdvd, hin, hfree⟩
  have hin' : f + 2 ^ getOrder size ≤ s.fs.nframes := by rwa [hs.nframes]
  have hbit := hs.up.covers hs.layout (getOrder_le hsize) hdvd hin'
    (fun g h1 h2 => hs.free g (h2.trans_le hin) (hfree g ⟨h1, h2⟩)) (le_refl _) covers_first
  rcases pmalloc_cases size s.fs with ⟨i, st', -, -, hp⟩ | ⟨st', hnone, -, -⟩
  · rw [hp] at hr
    omega
  · have := hnone _ (Layout.lt_numBits hs.layout hdvd hin' (le_refl _) covers_first)
    exact absurd hbit (by simp [this])

theorem no_block_missed_full : ∃ s : PmState, s.live.length = 1 ∧
    ¬ s.HasRoom 128 0x1000 := by
  obtain ⟨s, hs, hlen, hr⟩ := Reach.exists_of_exec PmCall.NoLoss PmCall.step
    (boot machine128)
    (fun s => s.live.length = 1 ∧ (pmalloc 0x1000 s.fs).1 = -1)
    [.pmalloc 0x1000, .pfree 0 0x1000, .pmalloc 0x80000] (by decide +kernel)
  exact ⟨s, hlen, no_block_missed hs (by decide) hr⟩

/-- The frames are all taken, in blocks of 2, 2, 4, 8, 16, 32 and 64, and the
first block is given back. At level 0 the merge reads bit 1 of order 1, which
belongs to frames 2 and 3, and stops before the block's own order: there is then
no block of two frames. -/
theorem free_block_missed : ¬ ∀ m s, Reach PmCall.Legal PmCall.step (boot m) s →
    ∀ size, 0 < size → size ≤ 2 ^ maxOrder * frameSize → (pmalloc size s.fs).1 = -1 →
      ¬ s.HasRoom m.nframes size := by
  intro h
  obtain ⟨s, hs, hlive, hr⟩ := Reach.exists_of_exec PmCall.Legal PmCall.step
    (boot machine128)
    (fun s => (∀ b ∈ s.live, 2 ≤ b.pfn) ∧ (pmalloc 0x2000 s.fs).1 = -1)
    [.pmalloc 0x2000, .pmalloc 0x2000, .pmalloc 0x4000, .pmalloc 0x8000, .pmalloc 0x10000,
      .pmalloc 0x20000, .pmalloc 0x40000, .pfree 0 0x2000] (by decide +kernel)
  refine h machine128 s hs 0x2000 (by decide) (by decide) hr ⟨0, by decide, by decide, ?_⟩
  intro g hg b hb hgb
  have h2 := hlive b hb
  have h1 : b.pfn ≤ g := hgb.1
  have hlt : g < 0 + 2 ^ getOrder 0x2000 := hg.2
  rw [show getOrder 0x2000 = 1 by decide] at hlt
  omega

-- ---------------------------------------------------------------------------
-- No access leaves its bitmap
-- ---------------------------------------------------------------------------

/-- Below the block's own order, the merging loop looks for the buddy in a
bitmap that is large enough for it. -/
def NearBuddy (st : FrameState) (o f : Nat) : Prop :=
  ∀ j < o, st.MergesTo o f j → f / 2 ^ j < st.cap o

instance : Decidable (NearBuddy st o f) := inferInstanceAs (Decidable (∀ j < o, _))

def PmCall.Near (s : PmState) : PmCall → Prop
  | .pmalloc size => PmCall.Legal s (.pmalloc size) ∧ MarkOk s.fs size
  | .pfree pfn size => PmCall.Legal s (.pfree pfn size) ∧ FreeOk s.fs (getOrder size) pfn ∧
      NearBuddy s.fs (getOrder size) pfn

instance : (c : PmCall) → Decidable (PmCall.Near s c)
  | .pmalloc _ => inferInstanceAs (Decidable (_ ∧ _))
  | .pfree _ _ => inferInstanceAs (Decidable (_ ∧ _ ∧ _))

/-- Every call of `set_bit`, `clear_bit` and `is_bit_set` so far was for a byte
of the bitmap. -/
def InBounds (st : FrameState) : Prop :=
  ∀ a ∈ st.accesses, a.index / 8 < (st.buddyBitmaps a.order).bytes

instance : Decidable (InBounds st) := inferInstanceAs (Decidable (∀ a ∈ st.accesses, _))

theorem byte_lt_iff : n / 8 < (st.buddyBitmaps j).bytes ↔ n < st.cap j := by
  rw [cap]
  omega

theorem InBounds.pmalloc (h : InBounds st) (hl : st.Layout) (hok : MarkOk st size)
    (hf : Finds st (getOrder size) i) (hs : Searched (getOrder size) st st') :
    InBounds (markUsed (getOrder size) i orders st') := by
  intro a ha
  rw [markUsed_buddyBitmaps, hs.buddyBitmaps, byte_lt_iff]
  rw [orders_eq] at ha
  rcases markUsed_accesses rfl (hs.layout hl) (hok.fits hl hf hs) ha with ha | ⟨-, -, ha⟩
  · rcases hs.accesses a ha with ha | ⟨ho, ha⟩
    · exact byte_lt_iff.mp (h a ha)
    · rw [ho]
      exact ha.trans_le (numBits_le_cap st _)
  · rwa [hs.cap] at ha

theorem InBounds.search (h : InBounds st) (hs : Searched o st st') : InBounds st' := by
  intro a ha
  rw [hs.buddyBitmaps]
  rcases hs.accesses a ha with ha | ⟨ho, ha⟩
  · exact h a ha
  · rw [byte_lt_iff, ho]
    exact ha.trans_le (numBits_le_cap st _)

theorem InBounds.pfree (h : InBounds st) (hl : st.Layout) (hf : 2 ^ getOrder size ∣ f)
    (hin : f + 2 ^ getOrder size ≤ st.nframes) (hok : FreeOk st (getOrder size) f)
    (hnear : NearBuddy st (getOrder size) f) : InBounds (pfree f size st) := by
  intro a ha
  have hown := Layout.lt_numBits hl hf hin (le_refl _) covers_first
  rw [pfree_buddyBitmaps, byte_lt_iff]
  rw [Pm.pfree, orders_eq] at ha
  rcases mergeFree_accesses hl hown (hok.fits hl hf hin) (by omega) ha with
    ha | ⟨-, -, ha⟩ | ⟨k, -, -, hmerge, rfl⟩
  · exact byte_lt_iff.mp (h a ha)
  · exact ha
  · rcases Nat.lt_or_ge k (getOrder size) with hk | hk
    · -- below the own order the index is even, its buddy one more
      have hlt := hnear k hk fun l hl => hmerge l (Nat.zero_le l) hl
      have heven := even_of_lt hf hk
      rw [xor_one, if_pos (by omega)]
      simp only [cap] at *
      omega
    · exact buddy_lt_cap hown hk

/-- Along every run that meets no ragged order, and whose merges look only for
buddies that the bitmap of the block's own order has room for, every access is
in bounds. -/
theorem accesses_in_bounds (h : Reach PmCall.Near PmCall.step (boot m) s) : InBounds s.fs := by
  refine (h.invariant (fun s => s.Basic m.nframes ∧ InBounds s.fs)
    ⟨boot_basic, fun a ha => by cases ha⟩ ?_).2
  rintro t c u ⟨hb, hi⟩ hc hstep
  cases c with
  | pmalloc size =>
    refine ⟨hb.step hc.1 hstep, ?_⟩
    rcases pmalloc_step_cases hstep with ⟨i, st', hf, hst, rfl⟩ | ⟨st', hst, rfl⟩
    · exact hi.pmalloc hb.layout hc.2 hf hst
    · exact hi.search hst
  | pfree pfn size =>
    obtain ⟨hmem, hok, hnear⟩ := hc
    refine ⟨hb.step hmem hstep, ?_⟩
    obtain rfl := Option.some.inj hstep
    obtain ⟨-, hdvd, hin⟩ := hb.aligned _ hmem
    exact hi.pfree hb.layout hdvd (by rwa [hb.nframes]) hok hnear

theorem accesses_in_bounds_two : ∃ s : PmState, s.fs.accesses.length = 35 ∧ InBounds s.fs := by
  obtain ⟨s, hs, hlen⟩ := Reach.exists_of_exec PmCall.Near PmCall.step
    (boot machine128) (fun s => s.fs.accesses.length = 35)
    [.pmalloc 0x2000, .pfree 0 0x2000] (by decide +kernel)
  exact ⟨s, hlen, accesses_in_bounds hs⟩

/-- Frames 64 and 65 are given back as one block of order 1. At level 0 its
buddy is looked for at index 65 of the order-1 bitmap, which has 64 bits. -/
theorem access_out_of_bounds :
    ¬ ∀ m s, Reach PmCall.Legal PmCall.step (boot m) s → InBounds s.fs := by
  refine fun h => Reach.refute (s := boot machine128)
    [.pmalloc 0x40000, .pmalloc 0x2000, .pfree 64 0x2000] ?_ (h machine128)
  decide +kernel

end

end Shigure.Pm
