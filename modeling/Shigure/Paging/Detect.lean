import Mathlib.Data.List.Induction
import Shigure.Paging.Boot

/-!
# Memory detection

`pm_initialize` keeps the address and the length of the last large region in 32 bits,
the length as an `int`, and `frame_initialize` divides a difference that is an `int`
as well. When the values that come out describe memory that is there.
-/

namespace Shigure.Paging

open Pm (frameSize)

def MmapEntry.large (e : MmapEntry) : Bool := decide (e.type = 1 ∧ e.len > 0x1000000)

def wholePages (n : Nat) : Nat := (n + (frameSize - 1)) / frameSize * frameSize

/-- The region is large and has room for the kernel and the initrd, each in whole
pages. -/
def CanHold (initrdStart : Nat) (mbt : Multiboot) (e : MmapEntry) : Prop :=
  e.large ∧ wholePages mbt.kernelSize + wholePages (sub32 mbt.modEnd initrdStart) ≤ e.len

def pmStartTemp (mbt : Multiboot) : Nat := (findMemory mbt.mmap).1

/-- The values detected are those of memory in one region that can hold the kernel and
the initrd. -/
structure Detected (initrdStart : Nat) (mbt : Multiboot) (m : PhysicalMemory) : Prop where
  region : ∃ e ∈ mbt.mmap, CanHold initrdStart mbt e ∧ e.addr ≤ pmStartTemp mbt ∧
    pmStartTemp mbt ≤ m.pmEnd ∧ m.pmEnd ≤ e.addr + e.len ∧
    ∀ n, n < m.nframes → n * frameSize + frameSize ≤ e.addr + e.len
  start : m.placementAddress ≤ m.pmEnd
  frames : m.nframes * frameSize ≤ m.pmEnd - m.placementAddress

def lastLarge (mmap : List MmapEntry) : Option MmapEntry := (mmap.filter MmapEntry.large).getLast?

/-- The address and the length of the region, each reduced modulo `2 ^ 32`, are those of
memory in a region that can hold the kernel and the initrd; these end in it, and what
is left behind them is less than `2 ^ 31` bytes. (Or it is within a page of `2 ^ 32`,
and no frame is counted.) -/
structure ReducedFits (initrdStart : Nat) (mbt : Multiboot) (a l : Nat) : Prop where
  ends : a + l < wordSize
  region : ∃ e ∈ mbt.mmap, CanHold initrdStart mbt e ∧ e.addr ≤ a ∧ a + l ≤ e.addr + e.len
  room : (a + align mbt.kernelSize frameSize +
    align (sub32 mbt.modEnd initrdStart) frameSize) % wordSize ≤ a + l
  rest : a + l - (a + align mbt.kernelSize frameSize +
        align (sub32 mbt.modEnd initrdStart) frameSize) % wordSize < 2 ^ 31 ∨
      wordSize - frameSize < a + l - (a + align mbt.kernelSize frameSize +
        align (sub32 mbt.modEnd initrdStart) frameSize) % wordSize

-- ---------------------------------------------------------------------------
-- The loop
-- ---------------------------------------------------------------------------

/-- The last large region is the one that is kept. -/
theorem findMemory_eq (mmap : List MmapEntry) :
    findMemory mmap = match lastLarge mmap with
      | some e => (e.addr % wordSize, intOfWord (e.len % wordSize))
      | none => (0, 0) := by
  induction mmap using List.reverseRecOn with
  | nil => rfl
  | append_singleton mmap e ih =>
    unfold findMemory lastLarge at *
    rw [List.foldl_append, List.foldl_cons, List.foldl_nil, List.filter_append]
    by_cases he : e.type = 1 ∧ e.len > 0x1000000
    · have hlarge : e.large = true := decide_eq_true he
      rw [if_pos he, List.filter_cons_of_pos hlarge, List.filter_nil, List.getLast?_concat]
    · have hsmall : e.large = false := decide_eq_false he
      rw [if_neg he, List.filter_cons_of_neg (by rw [hsmall]; decide), List.filter_nil,
        List.append_nil]
      exact ih

theorem lastLarge_of_mem {mmap : List MmapEntry} (h : e ∈ mmap) (he : e.large) :
    ∃ e', lastLarge mmap = some e' := by
  have hne : mmap.filter MmapEntry.large ≠ [] :=
    List.ne_nil_of_mem (List.mem_filter.mpr ⟨h, he⟩)
  exact ⟨_, List.getLast?_eq_some_getLast hne⟩

-- ---------------------------------------------------------------------------
-- The narrowed values
-- ---------------------------------------------------------------------------

theorem wordOfInt_intOfWord (h : w < 2 ^ 32) : wordOfInt (intOfWord w) = w := by
  unfold wordOfInt intOfWord
  split <;> omega

/-- The division of an `int` that is too large gives a count that is too large as well,
unless it gives none. -/
theorem frames_le_iff (h : d < 2 ^ 32) :
    wordOfInt ((intOfWord d).tdiv frameSize) * frameSize ≤ d ↔
      d < 2 ^ 31 ∨ wordSize - frameSize < d := by
  have hf : frameSize = 4096 := rfl
  have hw : wordSize = 2 ^ 32 := rfl
  by_cases hd : d < 2 ^ 31
  · have hdiv : (intOfWord d).tdiv frameSize = ((d / 4096 : Nat) : Int) := by
      rw [intOfWord, if_pos hd]
      exact (Int.ofNat_tdiv d 4096).symm
    rw [hdiv, hf, wordOfInt]
    omega
  · obtain ⟨n, hn⟩ : ∃ n, n + d = 2 ^ 32 := ⟨2 ^ 32 - d, by omega⟩
    have hdiv : (intOfWord d).tdiv frameSize = -((n / 4096 : Nat) : Int) := by
      have hneg : intOfWord d = -(n : Int) := by
        rw [intOfWord, if_neg hd]
        omega
      rw [hneg, Int.neg_tdiv]
      rfl
    rw [hdiv, hf, wordOfInt]
    omega

theorem pmInitialize_of_last (initrdStart : Nat) {mbt : Multiboot}
    (h : lastLarge mbt.mmap = some e) :
    let m := pmInitialize initrdStart mbt
    pmStartTemp mbt = e.addr % wordSize ∧
      m.pmEnd = (e.addr % wordSize + e.len % wordSize) % wordSize ∧
      m.placementAddress = (e.addr % wordSize + align mbt.kernelSize frameSize +
        align (sub32 mbt.modEnd initrdStart) frameSize) % wordSize ∧
      m.pmUsable = intOfWord (sub32 m.pmEnd m.placementAddress) := by
  have hfind := findMemory_eq mbt.mmap
  have hlen : e.len % wordSize < 2 ^ 32 := Nat.mod_lt _ (by decide)
  rw [h] at hfind
  unfold pmInitialize pmStartTemp
  rw [hfind]
  refine ⟨rfl, ?_, ?_, rfl⟩
  · dsimp only
    rw [wordOfInt_intOfWord hlen, add32]
  · dsimp only
    rw [add32, add32, Nat.mod_add_mod]

/-- Memory is detected as it is exactly if the last large region is described by its
values modulo `2 ^ 32`, holds the kernel and the initrd, and leaves less than `2 ^ 31`
bytes behind them. -/
theorem memory_detected_iff (initrdStart : Nat) (mbt : Multiboot)
    (hfit : ∃ e ∈ mbt.mmap, CanHold initrdStart mbt e) :
    Detected initrdStart mbt (pmInitialize initrdStart mbt) ↔
      ∃ e, lastLarge mbt.mmap = some e ∧
        ReducedFits initrdStart mbt (e.addr % wordSize) (e.len % wordSize) := by
  obtain ⟨e', hmem, hlarge, -⟩ := hfit
  obtain ⟨e, he⟩ := lastLarge_of_mem hmem hlarge
  obtain ⟨hstart, hend, hplace, husable⟩ := pmInitialize_of_last initrdStart he
  have ha : e.addr % wordSize < wordSize := Nat.mod_lt _ (by decide)
  have hl : e.len % wordSize < wordSize := Nat.mod_lt _ (by decide)
  have hlast : ∀ P : MmapEntry → Prop,
      (∃ e, lastLarge mbt.mmap = some e ∧ P e) ↔ P e := by
    intro P
    simp [he]
  rw [hlast]
  generalize hm : pmInitialize initrdStart mbt = m at *
  generalize e.addr % wordSize = a at *
  generalize e.len % wordSize = l at *
  have hendlt : m.pmEnd < wordSize := hend ▸ Nat.mod_lt _ (by decide)
  have hframes : m.placementAddress ≤ m.pmEnd →
      (m.nframes * frameSize ≤ m.pmEnd - m.placementAddress ↔
        m.pmEnd - m.placementAddress < 2 ^ 31 ∨
          wordSize - frameSize < m.pmEnd - m.placementAddress) := by
    intro hle
    rw [PhysicalMemory.nframes, husable, sub32_eq hle hendlt]
    exact frames_le_iff (by unfold wordSize at hendlt; omega)
  constructor
  · rintro ⟨⟨r, hr, hhold, hfrom, hle, hto, -⟩, hroom, hcount⟩
    rw [hstart] at hfrom hle
    have hnowrap : a + l < wordSize := by
      by_contra hge
      rw [hend, Nat.mod_eq_sub_mod (by omega), Nat.mod_eq_of_lt (by omega)] at hle
      omega
    have hsum : m.pmEnd = a + l := by rw [hend, Nat.mod_eq_of_lt hnowrap]
    have hrest := (hframes hroom).mp hcount
    rw [hsum] at hto hroom hrest
    rw [hplace] at hroom hrest
    exact ⟨hnowrap, ⟨r, hr, hhold, hfrom, hto⟩, hroom, hrest⟩
  · rintro ⟨hnowrap, ⟨r, hr, hhold, hfrom, hto⟩, hroom, hrest⟩
    have hsum : m.pmEnd = a + l := by rw [hend, Nat.mod_eq_of_lt hnowrap]
    rw [← hplace, ← hsum] at hroom hrest
    have hcount := (hframes hroom).mpr hrest
    refine ⟨⟨r, hr, hhold, by rw [hstart]; exact hfrom, by rw [hstart]; omega, by omega, ?_⟩,
      hroom, hcount⟩
    intro n hn
    have hmul := Nat.mul_le_mul_right frameSize hn
    rw [Nat.succ_mul] at hmul
    omega

/-- A megabyte of kernel, a page of initrd, and 128 megabytes of memory above the first
megabyte. -/
def smallPc : Multiboot := ⟨[⟨0, 0x9FC00, 1⟩, ⟨0x100000, 0x7EE0000, 1⟩], 0x201000, 0x100000⟩

theorem memory_detected_smallPc :
    (∃ e ∈ smallPc.mmap, CanHold 0x200000 smallPc e) ∧
      Detected 0x200000 smallPc (pmInitialize 0x200000 smallPc) := by
  have hold : CanHold 0x200000 smallPc ⟨0x100000, 0x7EE0000, 1⟩ := by
    unfold CanHold
    decide +kernel
  have hfit : ∃ e ∈ smallPc.mmap, CanHold 0x200000 smallPc e := ⟨_, by simp [smallPc], hold⟩
  refine ⟨hfit, (memory_detected_iff 0x200000 smallPc hfit).mpr ⟨⟨0x100000, 0x7EE0000, 1⟩, rfl, ?_⟩⟩
  exact ⟨by decide, ⟨_, by simp [smallPc], hold, by decide, by decide⟩, by decide +kernel,
    by decide +kernel⟩

/-- The same with three gigabytes. -/
def largePc : Multiboot := ⟨[⟨0, 0x9FC00, 1⟩, ⟨0x100000, 0xBFEE0000, 1⟩], 0x201000, 0x100000⟩

/-- The `int` is negative, and there seem to be more frames than memory has. -/
theorem memory_misdetected :
    (∃ e ∈ largePc.mmap, CanHold 0x200000 largePc e) ∧
      ¬ Detected 0x200000 largePc (pmInitialize 0x200000 largePc) := by
  constructor
  · refine ⟨⟨0x100000, 0xBFEE0000, 1⟩, by simp [largePc], ?_⟩
    unfold CanHold
    decide +kernel
  · intro h
    have hcount := h.frames
    revert hcount
    decide +kernel

end Shigure.Paging
