import Mathlib.Data.Set.Card
import Shigure.Paging.Clone

/-!
# Clones that succeed

A clone of tables of the kernel needs a block for the directory and nothing
else. A table that is copied needs a block, and a free frame for every frame it
holds.
-/

namespace Shigure.Paging

open Pm (FrameState frameSize freeFrames)

section
variable {s s' s₁ : VmState} {src dst pd t i : Nat} {is js : List Nat} {pa : BitVec 32}

-- ---------------------------------------------------------------------------
-- Tables
-- ---------------------------------------------------------------------------

def mappedCount (s : VmState) (t : Nat) (is : List Nat) : Nat :=
  is.countP fun i => pteToPfn (s.entry ⟨t, i⟩) ≠ 0

theorem exists_least {S : Set Nat} (h : S.Nonempty) : ∃ f, IsLeast S f := by
  classical
  exact ⟨Nat.find h, Nat.find_spec h, fun g hg => Nat.find_min' h hg⟩

theorem cloneEntry_total (hl : s.frames.Layout) (h0 : pteToPfn (s.entry ⟨dst, i⟩) = 0)
    (h : pteToPfn (s.entry ⟨src, i⟩) ≠ 0 → (freeFrames s.frames).Nonempty) :
    ∃ s', cloneEntry src dst i s = some s' := by
  rw [cloneEntry]
  split
  · exact ⟨_, rfl⟩
  · rename_i hz
    obtain ⟨f, hf⟩ := exists_least (h hz)
    obtain ⟨frames, -, -, -, ha⟩ := allocFrame_new hl h0 hf false false
    rw [ha]
    exact ⟨_, rfl⟩

theorem cloneEntries_total (hl : s.frames.Layout) (hn : s.frames.nframes ≤ 2 ^ 20)
    (hne : src ≠ dst) (hnd : is.Nodup) (h0 : ∀ i ∈ is, pteToPfn (s.entry ⟨dst, i⟩) = 0)
    (h : mappedCount s src is ≤ (freeFrames s.frames).ncard) :
    ∃ s', cloneEntries src dst is s = some s' := by
  induction is generalizing s with
  | nil => exact ⟨s, rfl⟩
  | cons i is ih =>
    obtain ⟨hi, hnd⟩ := List.nodup_cons.mp hnd
    have hcount : mappedCount s src (i :: is) = mappedCount s src is +
        if pteToPfn (s.entry ⟨src, i⟩) ≠ 0 then 1 else 0 := by
      simp [mappedCount, List.countP_cons]
    rw [hcount] at h
    have hfree : pteToPfn (s.entry ⟨src, i⟩) ≠ 0 → (freeFrames s.frames).Nonempty := fun hz => by
      rw [if_pos hz] at h
      exact Set.nonempty_of_ncard_ne_zero (by omega)
    obtain ⟨s₁, h1⟩ := cloneEntry_total hl (h0 i List.mem_cons_self) hfree
    obtain ⟨hl1, hn1, hle, hsame⟩ : s₁.frames.Layout ∧ s₁.frames.nframes = s.frames.nframes ∧
        mappedCount s src is ≤ (freeFrames s₁.frames).ncard ∧
        ∀ x : Slot, x ≠ ⟨dst, i⟩ → s₁.entry x = s.entry x := by
      rcases cloneEntry_cases hl hn hne (h0 i List.mem_cons_self) h1 with ⟨hz, rfl⟩ |
        ⟨hz, f, frames, phys, hf, hl', hn', hfree', -, rfl⟩
      · exact ⟨hl, rfl, le_of_add_le_left h, fun x hx => entry_setEntry_ne hx⟩
      · refine ⟨hl', hn', ?_, fun x hx => entry_setEntry_ne hx⟩
        show _ ≤ (freeFrames frames).ncard
        rw [if_pos hz] at h
        rw [hfree', Set.ncard_sdiff_singleton_of_mem hf.1]
        omega
    have hsrc : mappedCount s₁ src is = mappedCount s src is := by
      refine List.countP_congr fun j _ => ?_
      rw [hsame ⟨src, j⟩ (by simp [hne])]
    obtain ⟨s', h'⟩ := ih hl1 (hn1.trans_le hn) hnd (fun j hj => by
      rw [hsame ⟨dst, j⟩ (by
        simp only [ne_eq, Slot.mk.injEq, true_and]
        rintro rfl
        exact hi hj)]
      exact h0 j (List.mem_cons_of_mem i hj)) (hsrc.trans_le hle)
    exact ⟨s', by rw [cloneEntries, h1, Option.bind_some, h']⟩

theorem clonePageTable_of (hi : ikmalloc pageTableSize true s = some (t, pa, s₁))
    (he : cloneEntries src t (List.range ptEntries)
      { s₁.setTable t fun _ => 0 with made := t :: s₁.made } = some s') :
    clonePageTable src s = some (t, pa, s') := by
  rw [clonePageTable, hi]
  generalize List.range ptEntries = is at he ⊢
  simp only [Option.bind_eq_bind, Option.bind_some, he]

theorem clonePageTable_total (hl : s.frames.Layout) (hn : s.frames.nframes ≤ 2 ^ 20)
    (hi : ikmalloc pageTableSize true s = some (t, pa, s₁)) (hne : src ≠ t)
    (h : mappedCount s src (List.range ptEntries) ≤ (freeFrames s.frames).ncard) :
    ∃ s', clonePageTable src s = some (t, pa, s') := by
  have hframes : s₁.frames = s.frames ∧ s₁.pageTables = s.pageTables := by
    obtain ⟨_, _, _, _, rfl⟩ := ikmalloc_same hi
    exact ⟨rfl, rfl⟩
  obtain ⟨x, hx⟩ : ∃ x, x = { s₁.setTable t fun _ => 0 with made := t :: s₁.made } := ⟨_, rfl⟩
  have hentry : ∀ q : Slot, x.entry q = if q.table = t then 0 else s.entry q := fun q => by
    rw [hx]
    refine (entry_setTable (s := s₁) t fun _ => 0).trans ?_
    simp only [VmState.entry, hframes.2]
  have hxf : x.frames = s.frames := by rw [hx]; exact hframes.1
  have hcount : mappedCount x src (List.range ptEntries) = mappedCount s src (List.range ptEntries) := by
    refine List.countP_congr fun j _ => ?_
    rw [hentry, if_neg hne]
  obtain ⟨s', h'⟩ := cloneEntries_total (hxf ▸ hl) (hxf ▸ hn) hne List.nodup_range
    (fun i _ => by rw [hentry, if_pos rfl]; exact pteToPfn_zero)
    (by rw [hcount, hxf]; exact h)
  exact ⟨s', clonePageTable_of hi (hx ▸ h')⟩

-- ---------------------------------------------------------------------------
-- Directories
-- ---------------------------------------------------------------------------

theorem clonePdes_append : clonePdes src dst (is ++ js) s =
    (clonePdes src dst is s).bind (clonePdes src dst js) := by
  induction is generalizing s with
  | nil => rfl
  | cons i is ih =>
    rw [List.cons_append, clonePdes, clonePdes]
    cases clonePde src dst i s with
    | none => rfl
    | some s₁ => exact ih

/-- No table has to be copied. -/
def Links (s : VmState) (src i : Nat) : Prop :=
  (s.pageDirectories src).tables i = 0 ∨
    (s.pageDirectories src).tables i = (s.pageDirectories s.kernelPd).tables i

instance (s : VmState) (src i : Nat) : Decidable (Links s src i) := inferInstanceAs (Decidable (_ ∨ _))

theorem clonePde_links (dst : Nat) (h : Links s src i) :
    ∃ t pde, clonePde src dst i s = some (s.setPde dst i t pde) := by
  rw [clonePde]
  rcases h with h0 | hkernel
  · exact ⟨_, _, if_pos h0⟩
  · by_cases h0 : (s.pageDirectories src).tables i = 0
    · exact ⟨_, _, if_pos h0⟩
    · rw [if_neg h0]
      exact ⟨_, _, if_pos hkernel⟩

theorem clonePdes_links (hne : src ≠ dst) (hk : s.kernelPd ≠ dst) (h : ∀ i ∈ is, Links s src i) :
    ∃ ds, clonePdes src dst is s = some { s with pageDirectories := ds } ∧
      ∀ d ≠ dst, ds d = s.pageDirectories d := by
  induction is generalizing s with
  | nil => exact ⟨_, rfl, fun _ _ => rfl⟩
  | cons i is ih =>
    obtain ⟨t, pde, hset⟩ := clonePde_links dst (h i List.mem_cons_self)
    have hother : ∀ d ≠ dst, (s.setPde dst i t pde).pageDirectories d = s.pageDirectories d :=
      fun d hd => if_neg hd
    obtain ⟨ds, hds, hsame⟩ := ih (s := s.setPde dst i t pde) hk fun j hj => by
      rw [Links, hother src hne, show (s.setPde dst i t pde).kernelPd = s.kernelPd from rfl,
        hother _ hk]
      exact h j (List.mem_cons_of_mem i hj)
    refine ⟨ds, ?_, fun d hd => (hsame d hd).trans (hother d hd)⟩
    rw [clonePdes, hset, Option.bind_some, hds]
    rfl

theorem clonePageDirectory_of (hi : ikmalloc pageDirectorySize true s = some (pd, pa, s₁))
    (he : clonePdes src pd (List.range pdEntries)
      { s₁.setDirectory pd ⟨fun _ => 0, fun _ => 0, pa⟩ with
        directories := pd :: s₁.directories } = some s') :
    clonePageDirectory src s = some (pd, s') := by
  rw [clonePageDirectory, hi]
  generalize List.range pdEntries = is at he ⊢
  simp only [Option.bind_eq_bind, Option.bind_some, he]

/-- A directory of tables of the kernel can be cloned if there is a block for it. -/
theorem clone_links (hi : ikmalloc pageDirectorySize true s = some (pd, pa, s₁)) (hne : src ≠ pd)
    (hk : s.kernelPd ≠ pd) (h : ∀ i < pdEntries, Links s src i) :
    ∃ ds, clonePageDirectory src s = some (pd, { s₁ with
      pageDirectories := ds, directories := pd :: s.directories }) := by
  have hsame : s₁.pageDirectories = s.pageDirectories ∧ s₁.kernelPd = s.kernelPd ∧
      s₁.directories = s.directories := by
    obtain ⟨_, _, _, _, rfl⟩ := ikmalloc_same hi
    exact ⟨rfl, rfl, rfl⟩
  obtain ⟨x, hx⟩ : ∃ x, x = { s₁.setDirectory pd ⟨fun _ => 0, fun _ => 0, pa⟩ with
    directories := pd :: s₁.directories } := ⟨_, rfl⟩
  have hother : ∀ d ≠ pd, x.pageDirectories d = s.pageDirectories d := fun d hd => by
    rw [hx]
    exact (if_neg hd).trans (congrFun hsame.1 d)
  have hkernel : x.kernelPd = s.kernelPd := by
    rw [hx]
    exact hsame.2.1
  obtain ⟨ds, hds, -⟩ := clonePdes_links (s := x) hne (hkernel ▸ hk) fun i
      (hin : i ∈ List.range pdEntries) => by
    rw [Links, hother src hne, hkernel, hother _ hk]
    exact h i (List.mem_range.mp hin)
  refine ⟨ds, ?_⟩
  rw [clonePageDirectory_of hi (hx ▸ hds), ← hsame.2.2]
  rfl

theorem clonePageTable_same (h : clonePageTable src s = some (t, pa, s')) :
    s'.pageDirectories = s.pageDirectories ∧ s'.kernelPd = s.kernelPd ∧
      s'.directories = s.directories := by
  obtain ⟨s₁, hi, he⟩ := clonePageTable_some h
  obtain ⟨_, _, _, rfl⟩ := cloneEntries_same he
  obtain ⟨_, _, _, _, rfl⟩ := ikmalloc_same hi
  exact ⟨rfl, rfl, rfl⟩

theorem Links.congr (h : Links s src i) (hsrc : s'.pageDirectories src = s.pageDirectories src)
    (hk : s'.kernelPd = s.kernelPd)
    (hkernel : s'.pageDirectories s.kernelPd = s.pageDirectories s.kernelPd) : Links s' src i := by
  rw [Links, hsrc, hk, hkernel]
  exact h

theorem range_split (hi : i < pdEntries) :
    List.range pdEntries = List.range i ++ i :: List.range' (i + 1) (pdEntries - i - 1) := by
  rw [List.range_eq_range', List.range_eq_range', ← List.range'_succ, show pdEntries - i - 1 + 1 =
    pdEntries - i by omega]
  have happend := List.range'_append_1 (s := 0) (m := i) (n := pdEntries - i)
  rw [Nat.zero_add, Nat.add_sub_cancel' hi.le] at happend
  exact happend.symm

/-- A directory with one table of its own can be cloned if there are blocks for the
directory and for the table, and frames for what the table holds. -/
theorem clone_one {k k₁ k₂ : Vm.KHeap.KState} (hk : s.kheap = some k)
    (h1 : Vm.KHeap.ikmalloc pageDirectorySize true k = some (pd, k₁))
    (h2 : Vm.KHeap.ikmalloc pageTableSize true k₁ = some (t, k₂))
    (hl : s.frames.Layout) (hn : s.frames.nframes ≤ 2 ^ 20) (hne : src ≠ pd) (hkernel : s.kernelPd ≠ pd)
    (hi : i < pdEntries) (hown : ¬ Links s src i) (hlinks : ∀ j < pdEntries, j ≠ i → Links s src j)
    (ht : (s.pageDirectories src).tables i ≠ t)
    (hframes : mappedCount s ((s.pageDirectories src).tables i) (List.range ptEntries) ≤
      (freeFrames s.frames).ncard) :
    ∃ s', clonePageDirectory src s = some (pd, s') ∧ s'.made = t :: s.made ∧
      s'.directories = pd :: s.directories := by
  obtain ⟨x, hx⟩ : ∃ x, x = { VmState.setDirectory { s with
      kheap := some k₁
      held := if pd = 0 then s.held else ⟨pd - Vm.headerSize, pageDirectorySize⟩ :: s.held }
      pd ⟨fun _ => 0, fun _ => 0, kernelPhys pd s⟩ with directories := pd :: s.directories } :=
    ⟨_, rfl⟩
  have hxother : ∀ d ≠ pd, x.pageDirectories d = s.pageDirectories d := fun d hd => by
    rw [hx]
    exact if_neg hd
  have hxk : x.kernelPd = s.kernelPd := by rw [hx]; rfl
  have hxlinks : ∀ j < pdEntries, j ≠ i → Links x src j := fun j hj hji =>
    (hlinks j hj hji).congr (hxother src hne) hxk (hxother _ hkernel)
  -- the indices before, the table, and the indices behind
  obtain ⟨ds, hbefore, hds⟩ := clonePdes_links (s := x) hne (hxk ▸ hkernel)
    fun j (hj : j ∈ List.range i) => hxlinks j ((List.mem_range.mp hj).trans hi)
      (List.mem_range.mp hj).ne
  obtain ⟨y, hy⟩ : ∃ y, y = { x with pageDirectories := ds } := ⟨_, rfl⟩
  have hyother : ∀ d ≠ pd, y.pageDirectories d = s.pageDirectories d := fun d hd => by
    rw [hy]
    exact (hds d hd).trans (hxother d hd)
  have hyk : y.kernelPd = s.kernelPd := by rw [hy]; exact hxk
  have hyentry : ∀ q, y.entry q = s.entry q := fun q => by rw [hy, hx]; rfl
  have hyf : y.frames = s.frames := by rw [hy, hx]; rfl
  obtain ⟨z, hz⟩ := clonePageTable_total (hyf ▸ hl) (hyf ▸ hn)
    (ikmalloc_heap (show y.kheap = some k₁ by rw [hy, hx]; rfl) h2) ht (by
      rw [hyf]
      refine le_trans (le_of_eq (List.countP_congr fun j _ => ?_)) hframes
      rw [hyentry])
  obtain ⟨hzd, hzk, hzdirs⟩ := clonePageTable_same hz
  obtain ⟨w, hw⟩ : ∃ w, w = z.setPde pd i t
    (kernelPhys t y ||| pagePresent ||| pageRw ||| pageUser) := ⟨_, rfl⟩
  have hwother : ∀ d ≠ pd, w.pageDirectories d = s.pageDirectories d := fun d hd => by
    rw [hw]
    exact (if_neg hd).trans ((congrFun hzd d).trans (hyother d hd))
  have hwk : w.kernelPd = s.kernelPd := by rw [hw]; exact hzk.trans hyk
  have hpde : clonePde src pd i y = some w := by
    rw [clonePde, hyother src hne, hyk, hyother _ hkernel, if_neg fun h0 => hown (.inl h0),
      if_neg fun h => hown (.inr h), hz, hw]
    rfl
  obtain ⟨ds', hbehind, -⟩ := clonePdes_links (s := w) hne (hwk ▸ hkernel)
    fun j (hj : j ∈ List.range' (i + 1) (pdEntries - i - 1)) => by
      have hj' := List.mem_range'_1.mp hj
      exact (hlinks j (by omega) (by omega)).congr (hwother src hne) hwk (hwother _ hkernel)
  refine ⟨{ w with pageDirectories := ds' }, clonePageDirectory_of (ikmalloc_heap hk h1) ?_, ?_, ?_⟩
  · rw [range_split hi, clonePdes_append, ← hx, hbefore, Option.bind_some, ← hy, clonePdes, hpde,
      Option.bind_some, hbehind]
  · show w.made = _
    rw [hw, show (z.setPde _ _ _ _).made = z.made from rfl, clonePageTable_made hz, hy, hx]
    rfl
  · show w.directories = _
    rw [hw, show (z.setPde _ _ _ _).directories = z.directories from rfl, hzdirs, hy, hx]

end

end Shigure.Paging
