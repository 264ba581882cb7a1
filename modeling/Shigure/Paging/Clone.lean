import Shigure.Paging.FrameRuns
import Shigure.Paging.Objects

/-!
# Clones of address spaces

What `clone_page_directory` does to each index of the directory, each entry of
each table and each frame. Frames in use are never written; a copied entry gets
a frame that was free.
-/

namespace Shigure.Paging

open Pm (FrameState frameSize pmalloc pfree freeFrames)
open Vm (Block headerSize pageSize)

section
variable {s s' s₁ s₂ : VmState} {src dst i n : Nat} {is : List Nat} {m : Mem} {e e' : BitVec 32}

-- ---------------------------------------------------------------------------
-- Copying a frame
-- ---------------------------------------------------------------------------

theorem copyWords_outside {x : Nat} (hx : x < dst ∨ dst + 4 * n ≤ x) :
    copyWords n src dst m x = m x := by
  induction n generalizing src dst m with
  | zero => rfl
  | succ n ih =>
    rw [copyWords, ih (by omega)]
    exact Mem.write32_outside m (by omega)

theorem copyWords_inside {k : Nat} (hd : src + 4 * n ≤ dst ∨ dst + 4 * n ≤ src) (hk : k < 4 * n) :
    copyWords n src dst m (dst + k) = m (src + k) := by
  induction n generalizing src dst m k with
  | zero => omega
  | succ n ih =>
    rw [copyWords]
    rcases Nat.lt_or_ge k 4 with h4 | h4
    · rw [copyWords_outside (by omega)]
      exact Mem.write32_read32 m src dst h4
    · obtain ⟨j, rfl⟩ : ∃ j, k = 4 + j := ⟨k - 4, by omega⟩
      rw [← Nat.add_assoc, ← Nat.add_assoc, ih (by omega) (by omega)]
      exact Mem.write32_outside m (by omega)

theorem copyPhysicalPage_spec {f g : Nat} (hne : f ≠ g) :
    (∀ k < frameSize, copyPhysicalPage (f * frameSize) (g * frameSize) m (g * frameSize + k) =
      m (f * frameSize + k)) ∧
    ∀ h k, h ≠ g → k < frameSize →
      copyPhysicalPage (f * frameSize) (g * frameSize) m (h * frameSize + k) =
        m (h * frameSize + k) := by
  simp only [frameSize] at *
  constructor
  · intro k hk
    exact copyWords_inside (by omega) hk
  · intro h k hne' hk
    exact copyWords_outside (by omega)

-- ---------------------------------------------------------------------------
-- Frames in use
-- ---------------------------------------------------------------------------

/-- No frame is given back, and those in use keep what they hold. -/
structure Keeps (s s' : VmState) : Prop where
  layout : s'.frames.Layout
  nframes : s'.frames.nframes = s.frames.nframes
  free : freeFrames s'.frames ⊆ freeFrames s.frames
  phys : ∀ f k, f ∉ freeFrames s.frames → k < frameSize →
    s'.phys (f * frameSize + k) = s.phys (f * frameSize + k)

theorem Keeps.refl (hl : s.frames.Layout) : Keeps s s :=
  ⟨hl, rfl, Set.Subset.rfl, fun _ _ _ _ => rfl⟩

theorem Keeps.trans (h : Keeps s s₁) (h' : Keeps s₁ s₂) : Keeps s s₂ :=
  ⟨h'.layout, h'.nframes.trans h.nframes, h'.free.trans h.free,
    fun f k hf hk => (h'.phys f k (fun hin => hf (h.free hin)) hk).trans (h.phys f k hf hk)⟩

def Copied (s s' : VmState) (e e' : BitVec 32) : Prop :=
  (pteToPfn e = 0 ∧ e' = pageRw) ∨
  (pteToPfn e ≠ 0 ∧ ∃ f ∈ freeFrames s.frames, f ∉ freeFrames s'.frames ∧
    e' = cloneFlags e (frameEntry f false false) ∧
    ∀ k < frameSize, s'.phys (f * frameSize + k) = s.phys (pteToPfn e * frameSize + k))

theorem Copied.later (h : Copied s s₁ e e') (hk : Keeps s₁ s₂) : Copied s s₂ e e' := by
  refine h.imp_right fun ⟨h0, f, hf, hf', he, hphys⟩ => ⟨h0, f, hf, fun hin => hf' (hk.free hin), he,
    fun k hlt => ?_⟩
  rw [hk.phys f k hf' hlt, hphys k hlt]

theorem Copied.earlier (h : Copied s₁ s₂ e e') (hk : Keeps s s₁)
    (hused : pteToPfn e ≠ 0 → pteToPfn e ∉ freeFrames s.frames) : Copied s s₂ e e' := by
  refine h.imp_right fun ⟨h0, f, hf, hf', he, hphys⟩ => ⟨h0, f, hk.free hf, hf', he, fun k hlt => ?_⟩
  rw [hphys k hlt, hk.phys _ k (hused h0) hlt]

-- ---------------------------------------------------------------------------
-- Tables
-- ---------------------------------------------------------------------------

/-- One entry. The table that is filled is another one, and the entry is still
empty. -/
theorem cloneEntry_spec (hl : s.frames.Layout) (hn : s.frames.nframes ≤ 2 ^ 20) (hne : src ≠ dst)
    (h0 : pteToPfn (s.entry ⟨dst, i⟩) = 0)
    (hused : pteToPfn (s.entry ⟨src, i⟩) ≠ 0 →
      pteToPfn (s.entry ⟨src, i⟩) ∉ freeFrames s.frames)
    (h : cloneEntry src dst i s = some s') :
    Keeps s s' ∧ Copied s s' (s.entry ⟨src, i⟩) (s'.entry ⟨dst, i⟩) ∧
      ∀ p : Slot, p ≠ ⟨dst, i⟩ → s'.entry p = s.entry p := by
  rcases cloneEntry_cases hl hn hne h0 h with ⟨hz, rfl⟩ |
    ⟨hz, f, frames, phys, hf, hl', hn', hfree, hphys, rfl⟩
  · refine ⟨⟨hl, rfl, Set.Subset.rfl, fun _ _ _ _ => rfl⟩, .inl ⟨hz, entry_setEntry_self⟩, ?_⟩
    exact fun p hp => entry_setEntry_ne hp
  · have hcopy := copyPhysicalPage_spec (m := s.phys)
      (fun he : pteToPfn (s.entry ⟨src, i⟩) = f => hused hz (he ▸ hf.1))
    rw [← hphys] at hcopy
    have hnot : f ∉ freeFrames frames := by
      rw [hfree]
      exact fun hin => hin.2 rfl
    refine ⟨⟨hl', hn', fun g hg => ?_, fun g k hg hk => ?_⟩,
      .inr ⟨hz, f, hf.1, hnot, entry_setEntry_self, hcopy.1⟩, fun p hp => entry_setEntry_ne hp⟩
    · exact (hfree ▸ hg : g ∈ freeFrames s.frames \ {f}).1
    · exact hcopy.2 g k (fun he => hg (he ▸ hf.1)) hk

theorem cloneEntries_spec (hl : s.frames.Layout) (hn : s.frames.nframes ≤ 2 ^ 20) (hne : src ≠ dst)
    (hnd : is.Nodup) (h0 : ∀ i ∈ is, pteToPfn (s.entry ⟨dst, i⟩) = 0)
    (hused : ∀ i ∈ is, pteToPfn (s.entry ⟨src, i⟩) ≠ 0 →
      pteToPfn (s.entry ⟨src, i⟩) ∉ freeFrames s.frames)
    (h : cloneEntries src dst is s = some s') :
    Keeps s s' ∧ (∀ i ∈ is, Copied s s' (s.entry ⟨src, i⟩) (s'.entry ⟨dst, i⟩)) ∧
      ∀ p : Slot, p.table ≠ dst ∨ p.index ∉ is → s'.entry p = s.entry p := by
  induction is generalizing s with
  | nil =>
    obtain rfl := Option.some.inj h
    exact ⟨Keeps.refl hl, by simp, fun _ _ => rfl⟩
  | cons i is ih =>
    obtain ⟨hi, hnd⟩ := List.nodup_cons.mp hnd
    obtain ⟨s₁, h1, h⟩ := Option.bind_eq_some_iff.mp h
    obtain ⟨hk, hcopied, hsame⟩ := cloneEntry_spec hl hn hne (h0 i List.mem_cons_self)
      (hused i List.mem_cons_self) h1
    have hsrc : ∀ j, s₁.entry ⟨src, j⟩ = s.entry ⟨src, j⟩ := fun j => hsame _ (by simp [hne])
    have hdst : ∀ j ∈ is, s₁.entry ⟨dst, j⟩ = s.entry ⟨dst, j⟩ := fun j hj => by
      refine hsame _ ?_
      simp only [ne_eq, Slot.mk.injEq, true_and]
      rintro rfl
      exact hi hj
    obtain ⟨hk', hcopied', hsame'⟩ := ih hk.layout (hk.nframes.trans_le hn) hnd
      (fun j hj => by rw [hdst j hj]; exact h0 j (List.mem_cons_of_mem i hj))
      (fun j hj hz hin => by
        rw [hsrc] at hz hin
        exact hused j (List.mem_cons_of_mem i hj) hz (hk.free hin)) h
    refine ⟨hk.trans hk', fun j hj => ?_, fun p hp => ?_⟩
    · rcases List.mem_cons.mp hj with rfl | hj
      · rw [hsame' _ (.inr hi)]
        exact hcopied.later hk'
      · have := hcopied' j hj
        rw [hsrc] at this
        exact this.earlier hk (hused j (List.mem_cons_of_mem i ‹_›))
    · have hp' : p.table ≠ dst ∨ p.index ∉ is :=
        hp.imp_right fun hnot hin => hnot (List.mem_cons_of_mem i hin)
      rw [hsame' p hp', hsame]
      rintro rfl
      exact hp.elim (fun hne => hne rfl) fun hnot => hnot List.mem_cons_self

structure Extends (pd : Nat) (s s' : VmState) : Prop extends Keeps s s' where
  made : s.made ⊆ s'.made
  tables : ∀ t, t ∈ s.made ∨ t ∉ s'.made → s'.pageTables t = s.pageTables t
  directories : s'.directories = s.directories
  kernelPd : s'.kernelPd = s.kernelPd
  others : ∀ d, d ≠ pd → s'.pageDirectories d = s.pageDirectories d
  paddrPde : (s'.pageDirectories pd).paddrPde = (s.pageDirectories pd).paddrPde

variable {pd t : Nat} {pa : BitVec 32}

theorem Extends.refl (hl : s.frames.Layout) : Extends pd s s :=
  ⟨Keeps.refl hl, List.Subset.refl _, fun _ _ => rfl, rfl, rfl, fun _ _ => rfl, rfl⟩

theorem Extends.trans (h : Extends pd s s₁) (h' : Extends pd s₁ s₂) : Extends pd s s₂ where
  toKeeps := h.toKeeps.trans h'.toKeeps
  made := List.Subset.trans h.made h'.made
  tables t ht := by
    rw [h'.tables t (ht.imp_left fun hin => h.made hin),
      h.tables t (ht.imp_right fun hnot hin => hnot (h'.made hin))]
  directories := h'.directories.trans h.directories
  kernelPd := h'.kernelPd.trans h.kernelPd
  others d hd := (h'.others d hd).trans (h.others d hd)
  paddrPde := h'.paddrPde.trans h.paddrPde

theorem Extends.entry (h : Extends pd s s') {p : Slot} (hp : p.table ∈ s.made) :
    s'.entry p = s.entry p := by
  simp only [VmState.entry, h.tables _ (.inl hp)]

structure NewTable (s s' : VmState) (t : Nat) : Prop where
  fresh : t ∉ s.made
  made : t ∈ s'.made
  low : Vm.KHeap.kheapStart ≤ t
  high : t + pageTableSize ≤ Vm.KHeap.kheapEnd
  aligned : pageSize ∣ t

theorem clonePageTable_spec (pd : Nat) (hs : Sound s) (hl : s.frames.Layout)
    (hn : s.frames.nframes ≤ 2 ^ 20) (hsrc : src ∈ s.made)
    (hused : ∀ i < ptEntries, pteToPfn (s.entry ⟨src, i⟩) ≠ 0 →
      pteToPfn (s.entry ⟨src, i⟩) ∉ freeFrames s.frames)
    (h : clonePageTable src s = some (t, pa, s')) (ht : t ≠ 0) :
    Sound s' ∧ Extends pd s s' ∧ s'.pageDirectories = s.pageDirectories ∧ NewTable s s' t ∧
      pa = kernelPhys t s ∧
      ∀ i < ptEntries, Copied s s' (s.entry ⟨src, i⟩) (s'.entry ⟨t, i⟩) := by
  obtain ⟨s₁, hi, he⟩ := clonePageTable_some h
  obtain ⟨⟨kheap, held, rfl⟩, hs1, hpa, hblock⟩ := hs.ikmalloc (by decide) hi
  have hb := hblock ht
  have hnew : t ∉ s.made := fun hin => hb.apart (List.mem_append_left _ hin)
  have hne : src ≠ t := fun he => hnew (he ▸ hsrc)
  obtain ⟨frames, tables, phys, hs'⟩ := cloneEntries_same he
  obtain ⟨hk, hcopied, hsame⟩ := cloneEntries_spec (by exact hl) (by exact hn) hne
    (List.nodup_range) (fun i _ => by
      simp only [VmState.entry, VmState.setTable, ↓reduceIte]
      exact pteToPfn_zero)
    (fun i hin => by
      simp only [VmState.entry, VmState.setTable, if_neg hne]
      exact hused i (List.mem_range.mp hin)) he
  have hentry : ∀ p : Slot, p.table ≠ t → s'.entry p = s.entry p := fun p hp => by
    rw [hsame p (.inl hp)]
    simp only [VmState.entry, VmState.setTable, if_neg hp]
  have hpd : s'.pageDirectories = s.pageDirectories := by rw [hs']; rfl
  have hmade : s'.made = t :: s.made := by rw [hs']
  refine ⟨hs1.addTable hb (by rw [hs']; rfl) (by rw [hs']; rfl) hmade (by rw [hs']; rfl),
    ⟨⟨hk.layout, hk.nframes, hk.free, hk.phys⟩, ?_, ?_, by rw [hs']; rfl, by rw [hs']; rfl,
      fun d _ => by rw [hpd], by rw [hpd]⟩, hpd,
    ⟨hnew, by rw [hmade]; exact List.mem_cons_self, hb.low, hb.high, hb.aligned⟩, hpa, ?_⟩
  · rw [hmade]
    exact List.subset_cons_self _ _
  · intro u hu
    have hut : u ≠ t := by
      rintro rfl
      rcases hu with hu | hu
      · exact hnew hu
      · exact hu (by rw [hmade]; exact List.mem_cons_self)
    funext i
    exact hentry ⟨u, i⟩ hut
  · intro i hlt
    have hc := hcopied i (List.mem_range.mpr hlt)
    simp only [VmState.entry, VmState.setTable, if_neg hne] at hc
    exact hc

-- ---------------------------------------------------------------------------
-- Directories
-- ---------------------------------------------------------------------------

/-- What a directory `src` has to be for a clone `dst` of it to be right. -/
structure Cloneable (s : VmState) (src dst : Nat) : Prop where
  sound : Sound s
  layout : s.frames.Layout
  small : s.frames.nframes ≤ 2 ^ 20
  srcNe : src ≠ dst
  kernelNe : s.kernelPd ≠ dst
  srcTables : ∀ i, (s.pageDirectories src).tables i = 0 ∨ (s.pageDirectories src).tables i ∈ s.made
  kernelTables : ∀ i, (s.pageDirectories s.kernelPd).tables i = 0 ∨
    (s.pageDirectories s.kernelPd).tables i ∈ s.made
  used : ∀ i < pdEntries, (s.pageDirectories src).tables i ≠ 0 → ∀ j < ptEntries,
    pteToPfn (s.entry ⟨(s.pageDirectories src).tables i, j⟩) ≠ 0 →
    pteToPfn (s.entry ⟨(s.pageDirectories src).tables i, j⟩) ∉ freeFrames s.frames

theorem Cloneable.later (h : Cloneable s src dst) (hx : Extends dst s s') (hs : Sound s') :
    Cloneable s' src dst := by
  have hsrc := hx.others src h.srcNe
  have hker := hx.others s.kernelPd h.kernelNe
  refine ⟨hs, hx.layout, hx.nframes.trans_le h.small, h.srcNe, hx.kernelPd ▸ h.kernelNe, ?_, ?_, ?_⟩
  · rw [hsrc]
    exact fun i => (h.srcTables i).imp_right fun hin => hx.made hin
  · rw [hx.kernelPd, hker]
    exact fun i => (h.kernelTables i).imp_right fun hin => hx.made hin
  · rw [hsrc]
    intro i hi hz j hj h0 hin
    rw [hx.entry ((h.srcTables i).resolve_left hz)] at h0 hin
    exact h.used i hi hz j hj h0 (hx.free hin)

theorem Extends.kernelPhys (hx : Extends dst s s') (h : Cloneable s src dst)
    (h0 : 0 ∉ s'.made) (a : Nat) : kernelPhys a s' = kernelPhys a s := by
  have hpage : findPage a s'.kernelPd s' = findPage a s.kernelPd s := by
    rw [findPage, hx.kernelPd, hx.others _ h.kernelNe, findPage]
  rw [Paging.kernelPhys, hpage, Paging.kernelPhys]
  congr 2
  simp only [VmState.entry]
  rw [hx.tables]
  rw [findPage]
  split
  · exact .inr h0
  · exact .inl ((h.kernelTables _).resolve_left ‹_›)

inductive ClonedPde (s s' : VmState) (src dst i : Nat) : Prop
  | absent (hsrc : (s.pageDirectories src).tables i = 0)
      (htable : (s'.pageDirectories dst).tables i = 0)
      (hpde : (s'.pageDirectories dst).entries i = pageRw)
  | linked (hsrc : (s.pageDirectories src).tables i ≠ 0)
      (hkernel : (s.pageDirectories src).tables i = (s.pageDirectories s.kernelPd).tables i)
      (htable : (s'.pageDirectories dst).tables i = (s.pageDirectories src).tables i)
      (hpde : (s'.pageDirectories dst).entries i = (s.pageDirectories src).entries i)
  | copied (hsrc : (s.pageDirectories src).tables i ≠ 0)
      (hkernel : (s.pageDirectories src).tables i ≠ (s.pageDirectories s.kernelPd).tables i)
      (hnew : NewTable s s' ((s'.pageDirectories dst).tables i))
      (hpde : (s'.pageDirectories dst).entries i =
        kernelPhys ((s'.pageDirectories dst).tables i) s ||| pagePresent ||| pageRw ||| pageUser)
      (hentries : ∀ j < ptEntries, Copied s s' (s.entry ⟨(s.pageDirectories src).tables i, j⟩)
        (s'.entry ⟨(s'.pageDirectories dst).tables i, j⟩))

def SamePde (s s' : VmState) (pd i : Nat) : Prop :=
  (s'.pageDirectories pd).tables i = (s.pageDirectories pd).tables i ∧
    (s'.pageDirectories pd).entries i = (s.pageDirectories pd).entries i

theorem ClonedPde.later (h : ClonedPde s s₁ src dst i) (hx : Extends dst s₁ s₂)
    (hsame : SamePde s₁ s₂ dst i) : ClonedPde s s₂ src dst i := by
  obtain ⟨ht, he⟩ := hsame
  cases h with
  | absent hsrc htable hpde => exact .absent hsrc (ht.trans htable) (he.trans hpde)
  | linked hsrc hkernel htable hpde => exact .linked hsrc hkernel (ht.trans htable) (he.trans hpde)
  | copied hsrc hkernel hnew hpde hentries =>
    refine .copied hsrc hkernel ?_ (by rw [ht, he, hpde]) fun j hj => ?_
    · rw [ht]
      exact ⟨hnew.fresh, hx.made hnew.made, hnew.low, hnew.high, hnew.aligned⟩
    · rw [ht, hx.entry hnew.made]
      exact (hentries j hj).later hx.toKeeps

theorem ClonedPde.earlier (h : ClonedPde s₁ s₂ src dst i) (hi : i < pdEntries)
    (hx : Extends dst s s₁) (hc : Cloneable s src dst) (h0 : 0 ∉ s₁.made) :
    ClonedPde s s₂ src dst i := by
  have hsrc' := hx.others src hc.srcNe
  have hker := hx.others s.kernelPd hc.kernelNe
  cases h with
  | absent hsrc htable hpde => exact .absent (hsrc' ▸ hsrc) htable hpde
  | linked hsrc hkernel htable hpde =>
    rw [hx.kernelPd, hker, hsrc'] at hkernel
    rw [hsrc'] at hsrc htable hpde
    exact .linked hsrc hkernel htable hpde
  | copied hsrc hkernel hnew hpde hentries =>
    rw [hx.kernelPd, hker, hsrc'] at hkernel
    rw [hsrc'] at hsrc
    refine .copied hsrc hkernel ⟨fun hin => hnew.fresh (hx.made hin), hnew.made, hnew.low, hnew.high,
      hnew.aligned⟩ (by rw [← hx.kernelPhys hc h0, hpde]) fun j hj => ?_
    have hcopied := hentries j hj
    rw [hsrc', hx.entry ((hc.srcTables i).resolve_left hsrc)] at hcopied
    exact hcopied.earlier hx.toKeeps (hc.used i hi hsrc j hj)

theorem ClonedPde.table_cases (h : ClonedPde s s' src dst i) :
    (s'.pageDirectories dst).tables i = 0 ∨
      (s'.pageDirectories dst).tables i = (s.pageDirectories src).tables i ∨
      NewTable s s' ((s'.pageDirectories dst).tables i) := by
  cases h with
  | absent _ htable _ => exact .inl htable
  | linked _ _ htable _ => exact .inr (.inl htable)
  | copied _ _ hnew _ _ => exact .inr (.inr hnew)

theorem extends_setPde (dst : Nat) (hl : s.frames.Layout) (i t : Nat) (pde : BitVec 32) :
    Extends dst s (s.setPde dst i t pde) := by
  refine ⟨⟨hl, rfl, Set.Subset.rfl, fun _ _ _ _ => rfl⟩, List.Subset.refl _, fun _ _ => rfl, rfl, rfl,
    fun d hd => ?_, ?_⟩
  · simp only [VmState.setPde, VmState.setDirectory, if_neg hd]
  · simp only [VmState.setPde, VmState.setDirectory, ↓reduceIte]

theorem setPde_self (s : VmState) (dst i t : Nat) (pde : BitVec 32) :
    ((s.setPde dst i t pde).pageDirectories dst).tables i = t ∧
      ((s.setPde dst i t pde).pageDirectories dst).entries i = pde := by
  simp only [VmState.setPde, VmState.setDirectory, ↓reduceIte, and_self]

theorem setPde_other (s : VmState) (dst t : Nat) (pde : BitVec 32) {j : Nat} (hj : j ≠ i) :
    SamePde s (s.setPde dst i t pde) dst j := by
  simp only [SamePde, VmState.setPde, VmState.setDirectory, ↓reduceIte, if_neg hj, and_self]

theorem clonePageTable_made (h : clonePageTable src s = some (t, pa, s')) :
    s'.made = t :: s.made := by
  obtain ⟨s₁, hi, he⟩ := clonePageTable_some h
  obtain ⟨_, _, _, rfl⟩ := cloneEntries_same he
  obtain ⟨_, _, _, _, rfl⟩ := ikmalloc_same hi
  rfl

theorem clonePde_made (h : clonePde src dst i s = some s') : s.made ⊆ s'.made := by
  rw [clonePde] at h
  split at h
  · obtain rfl := Option.some.inj h
    exact List.Subset.refl _
  · split at h
    · obtain rfl := Option.some.inj h
      exact List.Subset.refl _
    · obtain ⟨⟨t, pa, s₁⟩, ht, h⟩ := Option.bind_eq_some_iff.mp h
      obtain rfl := Option.some.inj h
      show s.made ⊆ s₁.made
      rw [clonePageTable_made ht]
      exact List.subset_cons_self _ _

theorem clonePdes_made (h : clonePdes src dst is s = some s') : s.made ⊆ s'.made := by
  induction is generalizing s with
  | nil =>
    obtain rfl := Option.some.inj h
    exact List.Subset.refl _
  | cons i is ih =>
    obtain ⟨s₁, h1, h⟩ := Option.bind_eq_some_iff.mp h
    exact List.Subset.trans (clonePde_made h1) (ih h)

theorem clonePde_spec (hc : Cloneable s src dst) (hi : i < pdEntries)
    (hd : (s.pageDirectories dst).tables i = 0) (h0 : 0 ∉ s'.made)
    (h : clonePde src dst i s = some s') :
    Sound s' ∧ Extends dst s s' ∧ ClonedPde s s' src dst i ∧ ∀ j ≠ i, SamePde s s' dst j := by
  rw [clonePde] at h
  split at h
  · rename_i hsrc
    obtain rfl := Option.some.inj h
    obtain ⟨htable, hpde⟩ := setPde_self s dst i
      ((s.pageDirectories dst).tables i) pageRw
    exact ⟨hc.sound.congr rfl rfl (List.Perm.refl _), extends_setPde dst hc.layout _ _ _,
      .absent hsrc (htable.trans hd) hpde, fun j hj => setPde_other _ _ _ _ hj⟩
  · rename_i hsrc
    split at h
    · rename_i hkernel
      obtain rfl := Option.some.inj h
      obtain ⟨htable, hpde⟩ := setPde_self s dst i
        ((s.pageDirectories src).tables i) ((s.pageDirectories src).entries i)
      exact ⟨hc.sound.congr rfl rfl (List.Perm.refl _), extends_setPde dst hc.layout _ _ _,
        .linked hsrc hkernel htable hpde, fun j hj => setPde_other _ _ _ _ hj⟩
    · rename_i hkernel
      obtain ⟨⟨t, pa, s₁⟩, ht, h⟩ := Option.bind_eq_some_iff.mp h
      obtain rfl := Option.some.inj h
      have hne : t ≠ 0 := by
        rintro rfl
        refine h0 ?_
        show 0 ∈ s₁.made
        rw [clonePageTable_made ht]
        exact List.mem_cons_self
      obtain ⟨hs1, hx, hpd, hnew, hpa, hcopied⟩ := clonePageTable_spec dst hc.sound
        hc.layout hc.small ((hc.srcTables i).resolve_left hsrc) (hc.used i hi hsrc) ht hne
      have hx' := extends_setPde dst hx.layout i t (pa ||| pagePresent ||| pageRw ||| pageUser)
      obtain ⟨htable, hpde⟩ := setPde_self s₁ dst i t
        (pa ||| pagePresent ||| pageRw ||| pageUser)
      refine ⟨hs1.congr rfl rfl (List.Perm.refl _), hx.trans hx',
        .copied hsrc hkernel ?_ ?_ fun j hj => ?_, fun j hj => ?_⟩
      · rw [htable]
        exact ⟨hnew.fresh, hnew.made, hnew.low, hnew.high, hnew.aligned⟩
      · rw [htable, hpde, hpa]
      · rw [htable]
        exact (hcopied j hj).later hx'.toKeeps
      · obtain ⟨htj, hej⟩ := setPde_other s₁ dst t
          (pa ||| pagePresent ||| pageRw ||| pageUser) hj
        rw [hpd] at htj hej
        exact ⟨htj, hej⟩

theorem clonePdes_spec (hc : Cloneable s src dst) (hnd : is.Nodup) (his : ∀ i ∈ is, i < pdEntries)
    (hd : ∀ i ∈ is, (s.pageDirectories dst).tables i = 0) (h0 : 0 ∉ s'.made)
    (h : clonePdes src dst is s = some s') :
    Sound s' ∧ Extends dst s s' ∧ (∀ i ∈ is, ClonedPde s s' src dst i) ∧
      (∀ i ∈ is, ∀ j ∈ is, (s'.pageDirectories dst).tables i ∉ s.made →
        (s'.pageDirectories dst).tables i ≠ 0 →
        (s'.pageDirectories dst).tables i = (s'.pageDirectories dst).tables j → i = j) ∧
      ∀ j ∉ is, SamePde s s' dst j := by
  induction is generalizing s with
  | nil =>
    obtain rfl := Option.some.inj h
    exact ⟨hc.sound, Extends.refl hc.layout, by simp, by simp, fun _ _ => ⟨rfl, rfl⟩⟩
  | cons i is ih =>
    obtain ⟨hi, hnd⟩ := List.nodup_cons.mp hnd
    obtain ⟨s₁, h1, h⟩ := Option.bind_eq_some_iff.mp h
    have h01 : 0 ∉ s₁.made := fun hin => h0 (clonePdes_made h hin)
    obtain ⟨hs1, hx1, hpde1, hsame1⟩ := clonePde_spec hc (his i List.mem_cons_self)
      (hd i List.mem_cons_self) h01 h1
    have hne : ∀ j ∈ is, j ≠ i := by
      rintro j hj rfl
      exact hi hj
    obtain ⟨hs2, hx2, hpdes2, hapart2, hsame2⟩ := ih (hc.later hx1 hs1) hnd
      (fun j hj => his j (List.mem_cons_of_mem i hj))
      (fun j hj => (hsame1 j (hne j hj)).1.trans (hd j (List.mem_cons_of_mem i hj))) h
    -- a table that is not in `s` was made in its own round
    have hrest : ∀ j ∈ is, (s'.pageDirectories dst).tables j ∉ s.made →
        (s'.pageDirectories dst).tables j ≠ 0 → (s'.pageDirectories dst).tables j ∉ s₁.made := by
      intro j hj hn hne0
      rcases (hpdes2 j hj).table_cases with hz | hsrc | hnew
      · exact absurd hz hne0
      · rw [hx1.others src hc.srcNe] at hsrc
        exact absurd ((hc.srcTables j).resolve_left (hsrc ▸ hne0)) (hsrc ▸ hn)
      · exact hnew.fresh
    have hhead : (s'.pageDirectories dst).tables i ∉ s.made →
        (s'.pageDirectories dst).tables i ≠ 0 → (s'.pageDirectories dst).tables i ∈ s₁.made := by
      rw [(hsame2 i hi).1]
      intro hn hne0
      rcases hpde1.table_cases with hz | hsrc | hnew
      · exact absurd hz hne0
      · exact absurd ((hc.srcTables i).resolve_left (hsrc ▸ hne0)) (hsrc ▸ hn)
      · exact hnew.made
    refine ⟨hs2, hx1.trans hx2, fun j hj => ?_, fun j hj k hk hn hne0 he => ?_, fun j hj => ?_⟩
    · rcases List.mem_cons.mp hj with rfl | hj
      · exact hpde1.later hx2 (hsame2 j hi)
      · exact (hpdes2 j hj).earlier (his j (List.mem_cons_of_mem i hj)) hx1 hc h01
    · rcases List.mem_cons.mp hj with rfl | hj' <;> rcases List.mem_cons.mp hk with rfl | hk'
      · rfl
      · exact absurd (he ▸ hhead hn hne0) (hrest k hk' (he ▸ hn) (he ▸ hne0))
      · exact absurd (he ▸ hhead (he ▸ hn) (he ▸ hne0)) (hrest j hj' hn hne0)
      · exact hapart2 j hj' k hk' (hrest j hj' hn hne0) hne0 he
    · have hji : j ≠ i := by
        rintro rfl
        exact hj List.mem_cons_self
      have hjs := hsame2 j fun hin => hj (List.mem_cons_of_mem i hin)
      have hji' := hsame1 j hji
      exact ⟨hjs.1.trans hji'.1, hjs.2.trans hji'.2⟩

/-- A directory that can be cloned: it has page tables, the frames they hold are in
use, and frame 0 stands in one entry at most. -/
structure Source (s : VmState) (src : Nat) : Prop where
  sound : Sound s
  layout : s.frames.Layout
  small : s.frames.nframes ≤ 2 ^ 20
  srcDirectory : src ∈ s.directories
  kernelDirectory : s.kernelPd ∈ s.directories
  srcTables : ∀ i, (s.pageDirectories src).tables i = 0 ∨ (s.pageDirectories src).tables i ∈ s.made
  kernelTables : ∀ i, (s.pageDirectories s.kernelPd).tables i = 0 ∨
    (s.pageDirectories s.kernelPd).tables i ∈ s.made
  used : ∀ i < pdEntries, (s.pageDirectories src).tables i ≠ 0 → ∀ j < ptEntries,
    Mapped (s.entry ⟨(s.pageDirectories src).tables i, j⟩) →
    pteToPfn (s.entry ⟨(s.pageDirectories src).tables i, j⟩) ∉ freeFrames s.frames
  lone : ∀ i < pdEntries, ∀ i' < pdEntries, (s.pageDirectories src).tables i ≠ 0 →
    (s.pageDirectories src).tables i' ≠ 0 → ∀ j < ptEntries, ∀ j' < ptEntries,
    Mapped (s.entry ⟨(s.pageDirectories src).tables i, j⟩) →
    Mapped (s.entry ⟨(s.pageDirectories src).tables i', j'⟩) →
    pteToPfn (s.entry ⟨(s.pageDirectories src).tables i, j⟩) = 0 →
    pteToPfn (s.entry ⟨(s.pageDirectories src).tables i', j'⟩) = 0 → i = i' ∧ j = j'

structure ClonedDirectory (s s' : VmState) (src pd : Nat) : Prop extends Keeps s s' where
  sound : Sound s'
  fresh : pd ∉ s.objects
  low : Vm.KHeap.kheapStart ≤ pd
  high : pd + pageDirectorySize ≤ Vm.KHeap.kheapEnd
  aligned : pageSize ∣ pd
  made : s.made ⊆ s'.made
  tables : ∀ t, t ∈ s.made ∨ t ∉ s'.made → s'.pageTables t = s.pageTables t
  directories : s'.directories = pd :: s.directories
  kernelPd : s'.kernelPd = s.kernelPd
  others : ∀ d, d ≠ pd → s'.pageDirectories d = s.pageDirectories d
  paddrPde : (s'.pageDirectories pd).paddrPde = kernelPhys pd s
  pdes : ∀ i < pdEntries, ClonedPde s s' src pd i
  apart : ∀ i < pdEntries, ∀ j < pdEntries, (s'.pageDirectories pd).tables i ∉ s.made →
    (s'.pageDirectories pd).tables i ≠ 0 →
    (s'.pageDirectories pd).tables i = (s'.pageDirectories pd).tables j → i = j

/-- Only the tables, the frames and the two directories of the source matter. -/
theorem ClonedPde.congr (h : ClonedPde s₁ s₂ src dst i) (hf : s₁.frames = s.frames)
    (hp : s₁.phys = s.phys) (ht : s₁.pageTables = s.pageTables) (hm : s₁.made = s.made)
    (hk : s₁.kernelPd = s.kernelPd) (hsrc' : s₁.pageDirectories src = s.pageDirectories src)
    (hker : s₁.pageDirectories s.kernelPd = s.pageDirectories s.kernelPd) :
    ClonedPde s s₂ src dst i := by
  have hentry : s₁.entry = s.entry := by
    funext p
    simp only [VmState.entry, ht]
  have hphys : ∀ a, Paging.kernelPhys a s₁ = Paging.kernelPhys a s := fun a => by
    simp only [Paging.kernelPhys, findPage, hk, hker, hentry]
  cases h with
  | absent hsrc htable hpde => exact .absent (hsrc' ▸ hsrc) htable hpde
  | linked hsrc hkernel htable hpde =>
    rw [hk, hker, hsrc'] at hkernel
    rw [hsrc'] at hsrc htable hpde
    exact .linked hsrc hkernel htable hpde
  | copied hsrc hkernel hnew hpde hentries =>
    rw [hk, hker, hsrc'] at hkernel
    rw [hsrc'] at hsrc
    refine .copied hsrc hkernel ⟨hm ▸ hnew.fresh, hnew.made, hnew.low, hnew.high, hnew.aligned⟩
      (by rw [← hphys, hpde]) fun j hj => ?_
    have hcopied := hentries j hj
    rw [Copied, hf, hp, hentry, hsrc'] at hcopied
    exact hcopied

theorem clonePdes_objects (h : clonePdes src dst is s = some s') : s'.directories = s.directories := by
  induction is generalizing s with
  | nil =>
    obtain rfl := Option.some.inj h
    rfl
  | cons i is ih =>
    obtain ⟨s₁, h1, h⟩ := Option.bind_eq_some_iff.mp h
    rw [ih h]
    rw [clonePde] at h1
    split at h1
    · obtain rfl := Option.some.inj h1
      rfl
    · split at h1
      · obtain rfl := Option.some.inj h1
        rfl
      · obtain ⟨⟨t, pa, s₂⟩, ht, h1⟩ := Option.bind_eq_some_iff.mp h1
        obtain rfl := Option.some.inj h1
        obtain ⟨s₃, hi, he⟩ := clonePageTable_some ht
        obtain ⟨_, _, _, rfl⟩ := cloneEntries_same he
        obtain ⟨_, _, _, _, rfl⟩ := ikmalloc_same hi
        rfl

theorem ClonedDirectory.old (h : ClonedDirectory s s' src pd) {d : Nat} (hin : d ∈ s.directories) :
    s'.pageDirectories d = s.pageDirectories d := by
  refine h.others d ?_
  rintro rfl
  exact h.fresh (List.mem_append_right _ hin)

theorem clonePageDirectory_spec (hc : Source s src) (h : clonePageDirectory src s = some (pd, s'))
    (h0 : 0 ∉ s'.objects) : ClonedDirectory s s' src pd := by
  obtain ⟨pa, s₁, hi, he⟩ := clonePageDirectory_some h
  have hdirs := clonePdes_objects he
  have h0' : 0 ∉ s'.made ∧ pd ≠ 0 := by
    refine ⟨fun hin => h0 (List.mem_append_left _ hin), ?_⟩
    rintro rfl
    refine h0 (List.mem_append_right _ ?_)
    rw [hdirs]
    exact List.mem_cons_self
  obtain ⟨⟨kheap, held, rfl⟩, hs1, hpa, hblock⟩ := hc.sound.ikmalloc (by decide) hi
  have hb := hblock h0'.2
  have hfresh : pd ∉ s.objects := hb.apart
  have hne : ∀ d ∈ s.directories, d ≠ pd := by
    rintro d hd rfl
    exact hfresh (List.mem_append_right _ hd)
  have hother : ∀ d, d ≠ pd → ∀ x, (VmState.setDirectory s pd x).pageDirectories d =
      s.pageDirectories d := fun d hd x => if_neg hd
  have hclone : Cloneable { VmState.setDirectory { s with kheap := kheap, held := held } pd
      ⟨fun _ => 0, fun _ => 0, pa⟩ with directories := pd :: s.directories } src pd := by
    refine ⟨hs1.addDirectory hb rfl rfl rfl rfl, hc.layout, hc.small, hne src hc.srcDirectory,
      hne _ hc.kernelDirectory, ?_, ?_, ?_⟩
    · intro i
      simp only [VmState.setDirectory, if_neg (hne src hc.srcDirectory)]
      exact hc.srcTables i
    · intro i
      simp only [VmState.setDirectory, if_neg (hne _ hc.kernelDirectory)]
      exact hc.kernelTables i
    · intro i hlt
      simp only [VmState.setDirectory, if_neg (hne src hc.srcDirectory)]
      exact fun hz j hj hp => hc.used i hlt hz j hj (.inl hp)
  obtain ⟨hs', hx, hpdes, hapart, -⟩ := clonePdes_spec hclone List.nodup_range
    (fun i hi => List.mem_range.mp hi) (fun i _ => by
      simp only [VmState.setDirectory, ↓reduceIte]) h0'.1 he
  refine ⟨⟨hx.layout, hx.nframes, hx.free, hx.phys⟩, hs', hfresh, hb.low, hb.high, hb.aligned,
    hx.made, hx.tables, hdirs, hx.kernelPd, fun d hd => ?_, ?_, fun i hi => ?_,
    fun i hi j hj => hapart i (List.mem_range.mpr hi) j (List.mem_range.mpr hj)⟩
  · rw [hx.others d hd]
    exact hother d hd _
  · rw [hx.paddrPde]
    simp only [VmState.setDirectory, ↓reduceIte]
    exact hpa
  · exact (hpdes i (List.mem_range.mpr hi)).congr rfl rfl rfl rfl rfl
      (hother src (hne src hc.srcDirectory) _) (hother _ (hne _ hc.kernelDirectory) _)

end

end Shigure.Paging
