import Shigure.Paging.Booted

/-!
# Two walks of one structure

The CPU finds a page table entry through `paddr_pde` and the entries of the
directory, the kernel through the pointers in `tables`. Both come to the same
entry, in every directory that `get_page` and `clone_page_directory` make after
the boot.
-/

namespace Shigure.Paging

open Pm (FrameState frameSize freeFrames)
open Vm (pageSize)
open Vm.KHeap (kheapStart kheapEnd)

def Slot.addr (p : Slot) : Nat := p.table + 4 * p.index

/-- A page-aligned address and the frame that the kernel maps it to. -/
def MapsTo (s : VmState) (a f : Nat) : Prop :=
  frameSize ∣ a ∧ a < wordSize ∧ frameAt s s.kernelPd a = some f

structure Walked (s : VmState) : Prop extends World s where
  heap : ∀ k < 256, ∃ f, MapsTo s (kheapStart + k * pageSize) f
  early : ∀ a < kheapStart, ∀ f, frameAt s s.kernelPd a = some f → f = a / frameSize
  tables : ∀ pd ∈ s.directories, ∀ i < pdEntries, (s.pageDirectories pd).tables i ≠ 0 →
    ∃ f flags, MapsTo s ((s.pageDirectories pd).tables i) f ∧
      (s.pageDirectories pd).entries i = BitVec.ofNat 32 f <<< 12 ||| flags ∧
      (flags = pagePresent ||| pageRw ∨ flags = pagePresent ||| pageRw ||| pageUser)
  paddrPde : ∀ pd ∈ s.directories, ∃ f, MapsTo s pd f ∧
    (s.pageDirectories pd).paddrPde = BitVec.ofNat 32 f <<< 12

section
variable {s s' : VmState} {src pd a f v vaddr : Nat} {p : Slot}

-- ---------------------------------------------------------------------------
-- What the kernel maps
-- ---------------------------------------------------------------------------

/-- The physical address that `ikmalloc` gives out. -/
theorem MapsTo.kernelPhys (h : MapsTo s a f) (hw : World s) :
    kernelPhys a s = BitVec.ofNat 32 f <<< 12 := by
  obtain ⟨⟨k, rfl⟩, hlt, hf⟩ := h
  obtain ⟨hp, -, rfl⟩ := frameAt_eq_some.mp hf
  have h0 := (hw.pdes _ hw.kernelDirectory _ (pdIndex_lt hlt)).present.mp hp
  have hoff : BitVec.ofNat 32 (frameSize * k) &&& 0xFFF = 0#32 := by
    rw [frameSize, ofNat_page]
    exact shiftLeft_and _ (by decide)
  rw [kernelPhys_page hoff, findPage_of_table h0]

def Stays (s s' : VmState) : Prop :=
  ∀ a < wordSize, frameAt s' s'.kernelPd a = frameAt s s.kernelPd a

theorem MapsTo.stays (h : MapsTo s a f) (hst : Stays s s') : MapsTo s' a f :=
  ⟨h.1, h.2.1, (hst a h.2.1).trans h.2.2⟩

theorem TableAdded.frameAt_same {i t d : Nat} {pde : BitVec 32} (h : TableAdded s s' pd i t pde)
    (hw : World s) (hd : d ∈ s.directories) (ha : a < wordSize) : frameAt s' d a = frameAt s d a := by
  have hok := hw.pdes _ hd _ (pdIndex_lt ha)
  by_cases hnew : d = pd ∧ pdIndex a = i
  · -- the new table maps nothing
    have h0 : (s.pageDirectories d).tables (pdIndex a) = 0 := by
      rw [hnew.1, hnew.2]
      exact h.absent
    rw [frameAt_absent fun hp => hok.present.mp hp h0]
    refine frameAt_empty ?_
    rw [h.table, if_pos hnew, h.pte, if_pos rfl]
  · by_cases hp : anyOf ((s.pageDirectories d).entries (pdIndex a)) pagePresent = true
    · have hne : (s.pageDirectories d).tables (pdIndex a) ≠ t :=
        fun he => h.fresh (he ▸ hw.table (hok.present.mp hp))
      simp only [frameAt, h.table, h.entry, if_neg hnew, h.pte, if_neg hne]
    · rw [frameAt_absent hp, frameAt_absent]
      rwa [h.entry, if_neg hnew]

theorem TableAdded.stays {i t : Nat} {pde : BitVec 32} (h : TableAdded s s' pd i t pde)
    (hw : World s) : Stays s s' := by
  intro a ha
  rw [h.kernelPd]
  exact h.frameAt_same hw hw.kernelDirectory ha

theorem ClonedDirectory.stays (h : ClonedDirectory s s' src pd) (hw : World s) : Stays s s' := by
  intro a ha
  have hok := hw.pdes _ hw.kernelDirectory _ (pdIndex_lt ha)
  by_cases hp : anyOf ((s.pageDirectories s.kernelPd).entries (pdIndex a)) pagePresent = true
  · have he : s'.entry ⟨(s.pageDirectories s.kernelPd).tables (pdIndex a), ptIndex a⟩ =
        s.entry ⟨(s.pageDirectories s.kernelPd).tables (pdIndex a), ptIndex a⟩ :=
      h.entry (hw.table (hok.present.mp hp))
    simp only [frameAt, h.kernelPd, h.old hw.kernelDirectory, he]
  · rw [frameAt_absent hp, frameAt_absent]
    rwa [h.kernelPd, h.old hw.kernelDirectory]

theorem Walked.early_stays (h : Walked s) (hst : Stays s s') :
    ∀ a < kheapStart, ∀ f, frameAt s' s'.kernelPd a = some f → f = a / frameSize :=
  fun a ha f hf => h.early a ha f ((hst a (ha.trans (by decide))).symm.trans hf)

theorem Walked.heap_page (h : Walked s) (hlow : kheapStart ≤ a) (hhigh : a + pageSize ≤ kheapEnd)
    (hal : pageSize ∣ a) : ∃ f, MapsTo s a f := by
  obtain ⟨k, hk, rfl⟩ : ∃ k < 256, a = kheapStart + k * pageSize := by
    obtain ⟨j, rfl⟩ := hal
    simp only [kheapStart, kheapEnd, pageSize, Vm.KHeap.kheapInitialSize] at *
    exact ⟨j - 0xC0000, by omega, by omega⟩
  exact h.heap k hk

-- ---------------------------------------------------------------------------
-- One call
-- ---------------------------------------------------------------------------

theorem Walked.getPage (h : Walked s) (hg : getPage vaddr pd true s = some (p, s')) : Walked s' := by
  have hw := h.toWorld.getPage hg
  obtain ⟨-, ⟨_, _, rfl⟩ | ⟨t, -, ha⟩⟩ := h.sound.getPage hg
  · exact ⟨hw, h.heap, h.early, h.tables, h.paddrPde⟩
  · have hst := ha.stays h.toWorld
    obtain ⟨f, hf⟩ := h.heap_page ha.low ha.high ha.aligned
    refine ⟨hw, fun k hk => ?_, h.early_stays hst, ?_, ?_⟩
    · obtain ⟨g, hg⟩ := h.heap k hk
      exact ⟨g, hg.stays hst⟩
    · rw [ha.directories]
      intro d hd i hi
      rw [ha.table, ha.entry]
      split
      · intro _
        refine ⟨f, pagePresent ||| pageRw, hf.stays hst, ?_, .inl rfl⟩
        rw [hf.kernelPhys h.toWorld, BitVec.or_assoc]
      · intro h0
        obtain ⟨g, flags, hg, he, hflags⟩ := h.tables d hd i hi h0
        exact ⟨g, flags, hg.stays hst, he, hflags⟩
    · rw [ha.directories]
      intro d hd
      obtain ⟨g, hg, he⟩ := h.paddrPde d hd
      exact ⟨g, hg.stays hst, (ha.paddrPde d).trans he⟩

theorem Walked.clone (h : Walked s) (hsrc : src ∈ s.directories)
    (hc : clonePageDirectory src s = some (pd, s')) (h0 : 0 ∉ s'.objects) : Walked s' := by
  have hd := clonePageDirectory_spec (h.source hsrc) hc h0
  have hst := hd.stays h.toWorld
  refine ⟨h.toWorld.clone hsrc hc h0, fun k hk => ?_, h.early_stays hst, ?_, ?_⟩
  · obtain ⟨g, hg⟩ := h.heap k hk
    exact ⟨g, hg.stays hst⟩
  · rw [hd.directories]
    intro d hin i hi
    rcases List.mem_cons.mp hin with rfl | hin
    · cases hd.pdes i hi with
      | absent _ htable => exact fun hne => absurd htable hne
      | linked hne _ htable hpde =>
        intro _
        rw [htable, hpde]
        obtain ⟨g, flags, hg, he, hflags⟩ := h.tables src hsrc i hi hne
        exact ⟨g, flags, hg.stays hst, he, hflags⟩
      | copied _ _ hnew hpde =>
        intro _
        obtain ⟨f, hf⟩ := h.heap_page hnew.low hnew.high hnew.aligned
        refine ⟨f, pagePresent ||| pageRw ||| pageUser, hf.stays hst, ?_, .inr rfl⟩
        rw [hpde, hf.kernelPhys h.toWorld, BitVec.or_assoc, BitVec.or_assoc, BitVec.or_assoc]
    · rw [hd.old hin]
      intro hne
      obtain ⟨g, flags, hg, he, hflags⟩ := h.tables d hin i hi hne
      exact ⟨g, flags, hg.stays hst, he, hflags⟩
  · rw [hd.directories]
    intro d hin
    rcases List.mem_cons.mp hin with rfl | hin
    · obtain ⟨f, hf⟩ := h.heap_page hd.low (by
        have := hd.high
        simp only [pageSize, pageDirectorySize] at *
        omega) hd.aligned
      exact ⟨f, hf.stays hst, by rw [hd.paddrPde, hf.kernelPhys h.toWorld]⟩
    · rw [hd.old hin]
      obtain ⟨g, hg, he⟩ := h.paddrPde d hin
      exact ⟨g, hg.stays hst, he⟩

-- ---------------------------------------------------------------------------
-- The boot
-- ---------------------------------------------------------------------------

section
variable {first n c p k : Nat} {early : List Span}

theorem Mapping.frameAt_early (h : Mapping first n c p k early s) (ha : a < kheapStart)
    (hf : frameAt s s.kernelPd a = some f) : f = a / frameSize := by
  obtain ⟨hp, hp', rfl⟩ := frameAt_eq_some.mp hf
  have hi : pdIndex a < 768 := by
    simp only [pdIndex, Nat.shiftRight_eq_div_pow, kheapStart] at *
    omega
  have hc : pdIndex a < c := by
    by_contra hge
    rw [h.entries, kernelEntry, if_pos (by rw [kernelTable, if_neg hge, if_neg (by omega)])] at hp
    exact absurd hp (by decide)
  rw [h.tables, kernelTable, if_pos hc] at hp' ⊢
  simp only [VmState.entry, h.page _ hc] at hp' ⊢
  have hj : ptIndex a < 1024 := ptIndex_lt
  split at hp'
  · rw [if_pos ‹_›, pteToPfn_frameEntry (by omega), page_eq]
  · exact absurd hp' (by decide)

theorem Mapping.frameAt_heap (h : Mapping first n c p 256 early s) (hc : c ≤ 768) (hf : 4 < first)
    (hk : k < 256) (hp : p + 256 ≤ 2 ^ 20) : MapsTo s (kheapStart + k * pageSize) (p + k) := by
  have htable : kernelTable first c 768 = 4096 * (first - 1) := by
    rw [kernelTable, if_neg (by omega), if_pos rfl]
  refine ⟨?_, ?_, ?_⟩
  · simp only [kheapStart, pageSize, frameSize]
    omega
  · simp only [kheapStart, pageSize, wordSize]
    omega
  · have hentry : s.entry ⟨4096 * (first - 1), k⟩ = frameEntry (p + k) false false := by
      rw [VmState.entry, h.heapPage, if_pos hk]
    rw [frameAt_eq_some, pdIndex_kheap hk, ptIndex_kheap hk, h.tables, htable, hentry]
    exact ⟨h.present (by rw [htable]; omega), frameEntry_present _ _ _,
      pteToPfn_frameEntry (by omega) _ _⟩

theorem Mapping.mapsTo_page (h : Mapping first n c p k early s) (hf : 4 < first) {q : Nat} (hq : q < p)
    (hc : p ≤ 1024 * c) (hlt : q < 2 ^ 20) : MapsTo s (4096 * q) q := by
  refine ⟨⟨q, rfl⟩, by simp only [wordSize]; omega, ?_⟩
  rw [Nat.mul_comm]
  exact h.frameAt_page hf.le hq hc hlt

end

theorem HeapMade.walked {placement n initrdEnd : Nat} {m : VmState}
    (h : HeapMade placement n initrdEnd m s) : Walked s := by
  obtain ⟨hfirst, hbelow, hlow, -⟩ := h.fits.bounds
  have hm := h.mapping
  have hpages : identityPages placement n initrdEnd ≤
      1024 * tablesFor (identityPages placement n initrdEnd) := by
    simp only [tablesFor]
    omega
  have htables : tablesFor (identityPages placement n initrdEnd) ≤ 768 := by
    simp only [tablesFor]
    omega
  have hmaps : ∀ {a f}, MapsTo m a f → MapsTo s a f := by
    rw [h.state]
    exact id
  have hk : s.kernelPd = m.kernelPd := by rw [h.state]
  have hdirs : s.directories = [m.kernelPd] := by
    rw [h.state]
    exact hm.directories
  have hpd : s.pageDirectories = m.pageDirectories := by rw [h.state]
  refine ⟨h.world, fun k hk => ⟨_, hmaps (hm.frameAt_heap htables hfirst hk (by omega))⟩, ?_, ?_, ?_⟩
  · rw [h.state]
    exact fun a ha f hf => hm.frameAt_early ha hf
  · intro pd hin i _ h0
    rw [hdirs, List.mem_singleton] at hin
    rw [hin, hpd, hm.tables] at h0 ⊢
    obtain ⟨q, hq, he⟩ : ∃ q < identityPages placement n initrdEnd,
        kernelTable (firstTablePage placement n) (tablesFor (identityPages placement n initrdEnd)) i =
          4096 * q := by
      rw [kernelTable] at h0 ⊢
      split
      · exact ⟨_, by omega, rfl⟩
      · split
        · exact ⟨_, by omega, rfl⟩
        · simp_all
    refine ⟨q, pagePresent ||| pageRw, ?_, ?_, .inl rfl⟩
    · rw [he]
      exact hmaps (hm.mapsTo_page hfirst hq hpages (by omega))
    · rw [hm.entries, kernelEntry, if_neg h0, he, ofNat_page, BitVec.or_assoc]
  · intro pd hin
    rw [hdirs, List.mem_singleton] at hin
    refine ⟨firstTablePage placement n - 4, ?_, ?_⟩
    · rw [hin, hm.kernelPd]
      exact hmaps (hm.mapsTo_page hfirst (by omega) hpages (by omega))
    · rw [hin, hpd, hm.paddrPde, hm.kernelPd, ofNat_page]

theorem Boots.walked {n initrdEnd : Nat} {s₀ : VmState} (h : Boots n initrdEnd s₀ s) : Walked s := by
  obtain ⟨m, s₁, pd, s₂, hm, hc, rfl⟩ := h.cases
  have hw := hm.walked.clone hm.walked.kernelDirectory hc h.nonzero
  exact ⟨hw.toWorld.switch pd, hw.heap, hw.early, hw.tables, hw.paddrPde⟩

-- ---------------------------------------------------------------------------
-- The walks
-- ---------------------------------------------------------------------------

theorem frameAt_same_page {w : Nat} (h : v / frameSize = w / frameSize) :
    frameAt s pd v = frameAt s pd w := by
  have hi : pdIndex v = pdIndex w := by
    simp only [pdIndex, Nat.shiftRight_eq_div_pow, frameSize] at *
    omega
  have hj : ptIndex v = ptIndex w := by rw [ptIndex_eq, ptIndex_eq, h]
  simp only [frameAt, hi, hj]

/-- The kernel maps the bytes of a page in order. -/
theorem MapsTo.physAddr (h : MapsTo s a f) {k : Nat} (hk : k < frameSize) :
    physAddr s s.kernelPd (a + k) = some (f * frameSize + k) := by
  obtain ⟨⟨j, rfl⟩, -, hf⟩ := h
  have hpage : (frameSize * j + k) / frameSize = frameSize * j / frameSize := by
    simp only [frameSize] at *
    omega
  have hoff : (frameSize * j + k) % frameSize = k := by
    simp only [frameSize] at *
    omega
  rw [Paging.physAddr, frameAt_same_page hpage, hf, Option.map_some, hoff]

inductive WalkCall
  | getPage (vaddr pd : Nat)
  | clonePageDirectory (src : Nat)

def WalkCall.step (s : VmState) : WalkCall → Option VmState
  | .getPage vaddr pd => (Paging.getPage vaddr pd true s).map Prod.snd
  | .clonePageDirectory src => (Paging.clonePageDirectory src s).map Prod.snd

/-- A call for a directory that was made, in which every allocation succeeds. -/
def WalkCall.Succeeds (s : VmState) (c : WalkCall) : Prop :=
  (match c with
    | .getPage _ pd => pd ∈ s.directories
    | .clonePageDirectory src => src ∈ s.directories) ∧
  ∀ s', c.step s = some s' → 0 ∉ s'.objects

theorem Walked.step {c : WalkCall} (h : Walked s) (hc : c.Succeeds s) (hs : c.step s = some s') :
    Walked s' := by
  have h0 := hc.2 s' hs
  cases c with
  | getPage vaddr pd =>
    obtain ⟨⟨p, s₁⟩, hg, rfl⟩ := Option.map_eq_some_iff.mp hs
    exact h.getPage hg
  | clonePageDirectory src =>
    obtain ⟨⟨pd, s₁⟩, hd, rfl⟩ := Option.map_eq_some_iff.mp hs
    exact h.clone hc.1 hd h0

end

end Shigure.Paging
