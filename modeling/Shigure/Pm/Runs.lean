import Shigure.Lib.Reach
import Shigure.Lib.Span
import Shigure.Pm.Loops

/-!
# Runs of the frame allocator

`PmState` is the allocator with the blocks its callers hold. A caller asks for
one to `2 ^ maxOrder` frames and gives back what it holds, with the size it
asked for.
-/

namespace Shigure.Pm

open Buddy
open FrameState hiding mem nframes accesses

structure Block where
  pfn : Nat
  size : Nat
  deriving DecidableEq, Repr

def Block.order (b : Block) : Nat := getOrder b.size

def Block.frames (b : Block) : Span := ⟨b.pfn, 2 ^ b.order⟩

structure PmState where
  fs : FrameState
  live : List Block

inductive PmCall
  | pmalloc (size : Nat)
  | pfree (pfn size : Nat)
  deriving DecidableEq, Repr

def PmCall.step (s : PmState) : PmCall → Option PmState
  | .pmalloc size =>
    let (pfn, fs) := Pm.pmalloc size s.fs
    some ⟨fs, if pfn = -1 then s.live else ⟨pfn.toNat, size⟩ :: s.live⟩
  | .pfree pfn size => some ⟨Pm.pfree pfn size s.fs, s.live.erase ⟨pfn, size⟩⟩

def PmCall.Legal (s : PmState) : PmCall → Prop
  | .pmalloc size => 0 < size ∧ size ≤ 2 ^ maxOrder * frameSize
  | .pfree pfn size => ⟨pfn, size⟩ ∈ s.live

instance : Decidable (PmCall.Legal s c) := by
  cases c <;> unfold PmCall.Legal <;> infer_instance

/-- What `frame_initialize` finds. `pm_usable` is an `int`, so the frame count
is one too. -/
structure Machine where
  mem : Mem
  placement : Nat
  nframes : Nat
  nframes_lt : nframes < 2 ^ 31

def boot (m : Machine) : PmState := ⟨frameInitialize m.mem m.placement m.nframes, []⟩

def PmState.Free (s : PmState) (f : Nat) : Prop := ∀ b ∈ s.live, f ∉ b.frames

-- ---------------------------------------------------------------------------
-- Start
-- ---------------------------------------------------------------------------

section
variable {m : Machine} {j n : Nat}

theorem boot_layout : (boot m).fs.Layout := ⟨fun _ => rfl, fun _ => rfl⟩

theorem boot_bit (hj : j ≤ maxOrder) (hn : n < (boot m).fs.cap j) :
    (boot m).fs.bit j n = true := by
  have hl : (boot m).fs.Layout := boot_layout
  have h0 := hl.bitmap_le (Nat.zero_le j)
  have h8 := hl.bitmap_le (show j + 1 ≤ maxOrder + 1 by omega)
  rw [hl.next] at h8
  simp only [boot, frameInitialize, bit, addr, cap, Mem.bit] at *
  rw [if_pos (by omega)]
  have : ∀ k < 8, (0xFF#8).getLsbD k = true := by decide
  exact this _ (Nat.mod_lt _ (by decide))

end

-- ---------------------------------------------------------------------------
-- Orders
-- ---------------------------------------------------------------------------

theorem orderLoop_le (hn : n ≤ 2 ^ top) (h : order ≤ top) : orderLoop n fuel order ≤ top := by
  induction fuel generalizing order with
  | zero => exact h
  | succ fuel ih =>
    rw [orderLoop, Nat.one_shiftLeft]
    split
    · rename_i hlt
      exact ih ((Nat.pow_lt_pow_iff_right (by decide)).mp (hlt.trans_le hn))
    · exact h

theorem getOrder_le (h : size ≤ 2 ^ maxOrder * frameSize) : getOrder size ≤ maxOrder := by
  refine orderLoop_le ?_ (Nat.zero_le _)
  simp only [add32, maxOrder, frameSize, wordSize] at *
  omega

@[simp] theorem getOrder_frameSize : getOrder frameSize = 0 := by decide

theorem orders_eq : orders = List.range' 0 (maxOrder + 1) := by decide

-- ---------------------------------------------------------------------------
-- One call of `pmalloc`
-- ---------------------------------------------------------------------------

structure Finds (st : FrameState) (o i : Nat) : Prop where
  inside : i < (st.buddyBitmaps o).numBits
  set : st.bit o i = true
  first : ∀ k < i, st.bit o k = false

/-- What the search of an order leaves: it only reads, and only bits of that
order that the bitmap has. -/
structure Searched (o : Nat) (st st' : FrameState) : Prop where
  mem : st'.mem = st.mem
  nframes : st'.nframes = st.nframes
  buddyBitmaps : st'.buddyBitmaps = st.buddyBitmaps
  accesses : ∀ a ∈ st'.accesses,
    a ∈ st.accesses ∨ (a.order = o ∧ a.index < (st.buddyBitmaps o).numBits)

section
variable {st st' : FrameState} {s s' : PmState} {size pfn o i j n : Nat}

theorem Searched.bit (h : Searched o st st') : st'.bit j n = st.bit j n := by
  simp only [FrameState.bit, addr, h.mem, h.buddyBitmaps]

theorem Searched.cap (h : Searched o st st') : st'.cap j = st.cap j := by
  simp only [FrameState.cap, h.buddyBitmaps]

theorem Searched.layout (h : Searched o st st') (hl : st.Layout) : st'.Layout :=
  hl.congr h.buddyBitmaps h.nframes

theorem firstFree_searched :
    Searched o st (firstFree o (st.buddyBitmaps o).numBits 0 st).2 where
  mem := firstFree_mem
  nframes := firstFree_nframes
  buddyBitmaps := firstFree_buddyBitmaps
  accesses _ h := (firstFree_accesses h).imp_right fun ⟨h1, h2⟩ => ⟨h1, by omega⟩

theorem pmalloc_cases (size : Nat) (st : FrameState) :
    (∃ i st', Finds st (getOrder size) i ∧ Searched (getOrder size) st st' ∧
      pmalloc size st =
        (((i * 2 ^ getOrder size : Nat) : Int), markUsed (getOrder size) i orders st')) ∨
    (∃ st', (∀ k < (st.buddyBitmaps (getOrder size)).numBits,
        st.bit (getOrder size) k = false) ∧ Searched (getOrder size) st st' ∧
      pmalloc size st = (-1, st')) := by
  have hs : Searched (getOrder size) st _ := firstFree_searched
  simp only [pmalloc]
  rcases hff : firstFree (getOrder size) (st.buddyBitmaps (getOrder size)).numBits 0 st with
    ⟨_ | i, st'⟩ <;> rw [hff] at hs
  · refine .inr ⟨st', fun k hk => ?_, hs, rfl⟩
    exact firstFree_none (i := 0) (by rw [hff]) (Nat.zero_le k) (by omega)
  · obtain ⟨-, h2, h3, h4⟩ := firstFree_some (by rw [hff])
    exact .inl ⟨i, st', ⟨by omega, h3, fun k hk => h4 k (Nat.zero_le k) hk⟩, hs, rfl⟩

theorem pmalloc_step_cases (h : PmCall.step s (.pmalloc size) = some s') :
    (∃ i st', Finds s.fs (getOrder size) i ∧ Searched (getOrder size) s.fs st' ∧
      s' = ⟨markUsed (getOrder size) i orders st', ⟨i * 2 ^ getOrder size, size⟩ :: s.live⟩) ∨
    (∃ st', Searched (getOrder size) s.fs st' ∧ s' = ⟨st', s.live⟩) := by
  simp only [PmCall.step, Option.some.injEq] at h
  rcases pmalloc_cases size s.fs with ⟨i, st', hf, hs, hp⟩ | ⟨st', -, hs, hp⟩ <;>
    simp only [hp] at h
  · refine .inl ⟨i, st', hf, hs, ?_⟩
    rw [← h, if_neg (by omega), Int.toNat_natCast]
  · exact .inr ⟨st', hs, h.symm⟩

end

-- ---------------------------------------------------------------------------
-- What every run keeps
-- ---------------------------------------------------------------------------

structure Block.Aligned (N : Nat) (b : Block) : Prop where
  order_le : b.order ≤ maxOrder
  dvd : 2 ^ b.order ∣ b.pfn
  inside : b.pfn + 2 ^ b.order ≤ N

structure PmState.Basic (N : Nat) (s : PmState) : Prop where
  layout : s.fs.Layout
  nframes : s.fs.nframes = N
  aligned : ∀ b ∈ s.live, b.Aligned N

section
variable {m : Machine} {st : FrameState} {s s' : PmState} {c : PmCall} {b : Block}
  {N f o i : Nat}

theorem boot_basic : (boot m).Basic m.nframes :=
  ⟨boot_layout, rfl, fun b hb => by cases hb⟩

theorem Finds.inside_frames (hl : st.Layout) (h : Finds st o i) :
    i * 2 ^ o + 2 ^ o ≤ st.nframes := by
  have hi := h.inside
  rw [hl.numBits, Nat.lt_iff_add_one_le, Nat.le_div_iff_mul_le (Nat.two_pow_pos o)] at hi
  calc i * 2 ^ o + 2 ^ o = (i + 1) * 2 ^ o := by ring
    _ ≤ st.nframes := hi

theorem PmState.Basic.step (hs : s.Basic N) (hc : c.Legal s) (h : c.step s = some s') :
    s'.Basic N := by
  cases c with
  | pmalloc size =>
    rcases pmalloc_step_cases h with ⟨i, st', hf, hst, rfl⟩ | ⟨st', hst, rfl⟩
    · refine ⟨(hst.layout hs.layout).congr markUsed_buddyBitmaps markUsed_nframes,
        (markUsed_nframes.trans hst.nframes).trans hs.nframes, fun b hb => ?_⟩
      rcases List.mem_cons.mp hb with rfl | hb
      · refine ⟨getOrder_le hc.2, Dvd.intro_left i rfl, ?_⟩
        rw [← hs.nframes]
        exact hf.inside_frames hs.layout
      · exact hs.aligned b hb
    · exact ⟨hst.layout hs.layout, hst.nframes.trans hs.nframes, hs.aligned⟩
  | pfree pfn size =>
    obtain rfl := Option.some.inj h
    exact ⟨hs.layout.congr pfree_buddyBitmaps pfree_nframes, pfree_nframes.trans hs.nframes,
      fun b hb => hs.aligned b (List.mem_of_mem_erase hb)⟩

theorem PmState.Basic.frame_lt_cap (hs : s.Basic N) (hf : f < N) : f < s.fs.cap 0 := by
  have := numBits_le_cap s.fs 0
  rw [hs.layout.numBits, pow_zero, Nat.div_one, hs.nframes] at this
  omega

theorem Block.Aligned.lt (h : Block.Aligned N b) (hf : f ∈ b.frames) : f < N :=
  hf.2.trans_le h.inside

end

end Shigure.Pm
