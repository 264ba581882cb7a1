import Mathlib.Order.Interval.Set.Nat
import Shigure.Paging.BootLaws
import Shigure.Paging.CloneTotal
import Shigure.Paging.World
import Shigure.Vm.Bump

/-!
# The machine after `vm_initialize`

The pages of the heap get the frames behind those of the identity mapping, the
heap is made behind the initrd, and the kernel's directory is cloned.
-/

namespace Shigure.Paging

open Pm (FrameState frameSize freeFrames)
open Vm (pageSize)
open Vm.KHeap (kheapStart kheapInitialSize kheapEnd heapSize nodeSize kheapInit)

section
variable {first n c p k initrdEnd i : Nat} {early : List Span} {s s' s₀ : VmState}

-- ---------------------------------------------------------------------------
-- The heap
-- ---------------------------------------------------------------------------

theorem ptIndex_kheap (hk : k < 256) : ptIndex (kheapStart + k * pageSize) = k := by
  simp only [ptIndex_eq, kheapStart, pageSize, frameSize]
  omega

theorem Mapping.mapKheapFrames (h : Mapping first n c p 0 early s) (hf : 4 ≤ first) (hc : c ≤ 768)
    (hn : p + 256 ≤ n) :
    ∃ s', mapKheapFrames s = some s' ∧ Mapping first n c p 256 early s' ∧
      s'.placementAddress = s.placementAddress := by
  have hrounds : Rounds pageSize (fun _ => kheapStart + kheapInitialSize) mapKernelPage
      (fun k x => Mapping first n c p k early x ∧ x.placementAddress = s.placementAddress)
      kheapStart 256 := by
    refine ⟨fun k x hk ⟨hx, hplace⟩ => ⟨?_, ?_⟩, fun _ _ => by decide, by decide⟩
    · simp only [pageSize, kheapInitialSize]
      omega
    · have htable : (x.pageDirectories x.kernelPd).tables (pdIndex (kheapStart + k * pageSize)) =
          4096 * (first - 1) := by
        rw [hx.tables, pdIndex_kheap hk, kernelTable, if_neg (by omega), if_pos rfl]
      obtain ⟨x', ha, hx', hp'⟩ := hx.giveHeapPage (by omega) hf
      refine ⟨x', ?_, hx', hp'.trans hplace⟩
      rw [mapKernelPage, getPage_old (by rw [htable]; omega), htable, ptIndex_kheap hk]
      exact ha
  obtain ⟨s', hrun, hs', hp'⟩ := hrounds.run ⟨h, rfl⟩ (show _ < loopFuel by decide)
  refine ⟨s', ?_, hs', hp'⟩
  rw [Paging.mapKheapFrames, hrun]
  rfl

theorem makeKheap_placed {q : Nat} (hk : s.kheap = none) (hp : s.placementAddress = q) (hq : 0 < q)
    (hw : q + heapSize + nodeSize < wordSize) :
    makeKheap s = some { s with
      placementAddress := q + heapSize + nodeSize
      placed := s.placed ++ [⟨q, heapSize⟩, ⟨q + heapSize, nodeSize⟩]
      kheap := some (kheapInit q (kernelMem s)) } := by
  rw [makeKheap, ikmalloc, hk]
  simp only [Bool.false_eq_true, ↓reduceIte, hp, Option.bind_eq_bind, Option.bind_some]
  rw [if_neg (by omega), add32_eq (by omega)]
  simp only [ikmalloc, Bool.false_eq_true, ↓reduceIte, Option.bind_some]
  rw [add32_eq hw, List.append_assoc]
  rfl

-- ---------------------------------------------------------------------------
-- The kernel's directory
-- ---------------------------------------------------------------------------

theorem Places.mem_made (h : Places first c early s) {t : Nat} :
    t ∈ s.made ↔ (∃ i < c, t = 4096 * (first + i)) ∨ t = 4096 * (first - 1) := by
  rw [h.made, List.mem_append, List.mem_reverse, List.mem_map, List.mem_singleton]
  refine or_congr_left ⟨?_, ?_⟩
  · rintro ⟨i, hi, rfl⟩
    exact ⟨i, List.mem_range.mp hi, rfl⟩
  · rintro ⟨i, hi, rfl⟩
    exact ⟨i, List.mem_range.mpr hi, rfl⟩

theorem Mapping.mapped_cases (h : Mapping first n c p k early s) {q : Slot} (hq : q.table ∈ s.made)
    (hm : Mapped (s.entry q)) :
    (∃ i j, i < c ∧ j < 1024 ∧ 1024 * i + j < p ∧ q = ⟨4096 * (first + i), j⟩ ∧
      s.entry q = frameEntry (1024 * i + j) false false) ∨
    ∃ j < k, q = ⟨4096 * (first - 1), j⟩ ∧ s.entry q = frameEntry (p + j) false false := by
  obtain ⟨t, j⟩ := q
  rcases h.mem_made.mp hq with ⟨i, hi, rfl⟩ | rfl
  · simp only [VmState.entry, h.page i hi j] at hm ⊢
    split at hm
    · rename_i hj
      exact .inl ⟨i, j, hi, hj.1, hj.2, rfl, if_pos hj⟩
    · exact absurd hm not_mapped_rw
  · simp only [VmState.entry, h.heapPage j] at hm ⊢
    split at hm
    · rename_i hj
      exact .inr ⟨j, hj, rfl, if_pos hj⟩
    · exact absurd hm not_mapped_rw

theorem Mapping.mapped_frame (h : Mapping first n c p k early s) (hn : p + k ≤ 2 ^ 20) {q : Slot}
    (hq : q.table ∈ s.made) (hm : Mapped (s.entry q)) :
    pteToPfn (s.entry q) < p + k ∧ anyOf (s.entry q) pagePresent = true ∧
      q = if pteToPfn (s.entry q) < p
        then ⟨4096 * (first + pteToPfn (s.entry q) / 1024), pteToPfn (s.entry q) % 1024⟩
        else ⟨4096 * (first - 1), pteToPfn (s.entry q) - p⟩ := by
  rcases h.mapped_cases hq hm with ⟨i, j, hi, hj, hlt, rfl, he⟩ | ⟨j, hj, rfl, he⟩
  · rw [he, pteToPfn_frameEntry (by omega), if_pos hlt]
    refine ⟨by omega, frameEntry_present _ _ _, ?_⟩
    rw [show (1024 * i + j) / 1024 = i by omega, show (1024 * i + j) % 1024 = j by omega]
  · rw [he, pteToPfn_frameEntry (by omega), if_neg (by omega)]
    refine ⟨by omega, frameEntry_present _ _ _, ?_⟩
    rw [Nat.add_sub_cancel_left]

theorem Mapping.owned (h : Mapping first n c p k early s) (hn : n ≤ 2 ^ 20) (hk : p + k ≤ n) :
    Owned s where
  layout := h.layout
  small := h.nframes ▸ hn
  pointers pd i := by
    by_cases hpd : pd = s.kernelPd
    · rw [hpd, h.tables, h.mem_made, kernelTable]
      split
      · exact .inr (.inl ⟨i, ‹_›, rfl⟩)
      · split
        · exact .inr (.inr rfl)
        · exact .inl rfl
    · exact .inl (h.others pd hpd i)
  used q hq hm := by
    obtain ⟨hlt, -, -⟩ := h.mapped_frame (by omega) hq hm
    rw [h.nframes, h.free]
    exact ⟨by omega, fun hin => absurd hin.1 (by omega)⟩
  apart q r hq hr hm hm' he := by
    obtain ⟨-, -, hq'⟩ := h.mapped_frame (by omega) hq hm
    obtain ⟨-, -, hr'⟩ := h.mapped_frame (by omega) hr hm'
    rw [hq', hr', he]

theorem kernelTable_inj {j : Nat} (hf : 4 < first) (h0 : kernelTable first c i ≠ 0)
    (h : kernelTable first c i = kernelTable first c j) : i = j := by
  simp only [kernelTable] at *
  split at h0 <;> split at h <;> grind

theorem Places.objects (h : Places first c early s) (hf : 4 < first) (hlow : first + c ≤ 768 * 1024) :
    0 ∉ s.objects ∧ (∀ a ∈ s.objects, a < kheapStart) ∧ s.objects.Nodup := by
  have hmem : ∀ a ∈ s.objects, (∃ i < c, a = 4096 * (first + i)) ∨ a = 4096 * (first - 1) ∨
      a = 4096 * (first - 4) := by
    intro a ha
    rcases List.mem_append.mp ha with ha | ha
    · exact (h.mem_made.mp ha).imp_right .inl
    · rw [h.directories, h.kernelPd] at ha
      exact .inr (.inr (List.mem_singleton.mp ha))
  refine ⟨fun h0 => ?_, fun a ha => ?_, ?_⟩
  · rcases hmem 0 h0 with ⟨i, -, h0⟩ | h0 | h0 <;> omega
  · simp only [kheapStart]
    rcases hmem a ha with ⟨i, hi, rfl⟩ | rfl | rfl <;> omega
  · rw [VmState.objects, h.made, h.directories, h.kernelPd, List.append_assoc,
      List.nodup_append, List.nodup_reverse]
    refine ⟨List.nodup_range.map fun i j hij => ?_, ?_, fun a ha b hb => ?_⟩
    · have hij : 4096 * (first + i) = 4096 * (first + j) := hij
      omega
    · simp only [List.cons_append, List.nil_append, List.nodup_cons, List.mem_singleton,
        List.not_mem_nil, not_false_eq_true, List.nodup_nil, and_self, and_true]
      omega
    · obtain ⟨i, -, rfl⟩ := List.mem_map.mp (List.mem_reverse.mp ha)
      simp only [List.cons_append, List.nil_append, List.mem_cons, List.not_mem_nil, or_false] at hb
      omega

theorem Mapping.world (h : Mapping first n c p 256 early s) (hf : 4 < first)
    (hlow : first + c ≤ 768 * 1024) (hn : n ≤ 2 ^ 20) (hp : p + 256 ≤ n) {q place : Nat} {m : Mem}
    {placed : List Span} (hq : q + heapSize + nodeSize ≤ kheapStart)
    (hs' : s' = { s with
      placementAddress := place, placed := placed, kheap := some (kheapInit q m) }) : World s' := by
  obtain ⟨h0, hbelow, hnodup⟩ := h.objects hf hlow
  have hsound : Sound s' := by
    have hgood := Vm.KHeap.Boot.init_good ⟨q, m, hq⟩
    rw [show Vm.KHeap.RunState.held _ = s.held from h.held.symm] at hgood
    rw [hs']
    exact ⟨⟨_, _, rfl, hgood⟩, h0, fun a ha => .inl (hbelow a ha), hnodup⟩
  have howned : Owned s' := by
    rw [hs']
    exact (h.owned hn hp).congr rfl rfl rfl (h.owned hn hp).pointers
  have hdirs : s'.directories = [s.kernelPd] := by rw [hs']; exact h.directories
  have hpd : s'.pageDirectories = s.pageDirectories := by rw [hs']
  have hk : s'.kernelPd = s.kernelPd := by rw [hs']
  have hentry : s'.entry = s.entry := by rw [hs']; rfl
  refine ⟨hsound, howned, by rw [hdirs, hk]; exact List.mem_singleton_self _, ?_, ?_, ?_⟩
  · intro pd hin i _
    rw [hdirs, List.mem_singleton] at hin
    rw [hin, hpd, PageDirectory.Ok, h.tables, h.entries, kernelEntry]
    by_cases hz : kernelTable first c i = 0
    · rw [if_pos hz]
      exact .inl ⟨hz, by decide⟩
    · rw [if_neg hz]
      exact .inr ⟨hz, newPde_flags _⟩
  · intro pd hin i _ hne j _ hpfn
    rw [hdirs, List.mem_singleton] at hin
    rw [hin, hpd] at hne
    rw [hin, hpd, hentry] at hpfn ⊢
    exact (h.mapped_frame (by omega) (((h.owned hn hp).pointers _ i).resolve_left hne)
      (.inl hpfn)).2.1
  · intro pd hin pd' hin' i _ i' _ hne he
    rw [hdirs, List.mem_singleton] at hin hin'
    rw [hin, hpd, h.tables] at hne he
    rw [hin', h.tables] at he
    exact kernelTable_inj hf hne he

-- ---------------------------------------------------------------------------
-- The whole of `vm_initialize`
-- ---------------------------------------------------------------------------

/-- The kernel and the initrd are below the heap, there are frames for them and for
the heap, and frame numbers fit page table entries. -/
structure BootFits (placement n initrdEnd : Nat) : Prop where
  small : n ≤ 2 ^ 20
  low : 4096 * identityPages placement n initrdEnd < kheapStart
  frames : identityPages placement n initrdEnd + 256 ≤ n

structure HeapMade (placement n initrdEnd : Nat) (m s : VmState) : Prop where
  fits : BootFits placement n initrdEnd
  mapping : Mapping (firstTablePage placement n) n (tablesFor (identityPages placement n initrdEnd))
    (identityPages placement n initrdEnd) 256 (earlySpans placement n) m
  state : s = { m with
    placementAddress := initrdEnd + pageSize + heapSize + nodeSize
    placed := m.placed ++ [⟨initrdEnd + pageSize, heapSize⟩,
      ⟨initrdEnd + pageSize + heapSize, nodeSize⟩]
    kheap := some (kheapInit (initrdEnd + pageSize) (kernelMem m)) }

theorem firstTablePage_pos (placement : Nat) (hn : 0 < n) : 4 < firstTablePage placement n := by
  have h1 : Pm.bitmapAddr placement n 1 ≤ Pm.bitmapAddr placement n (Pm.maxOrder + 1) :=
    bitmapAddr_mono (by decide)
  have h0 : Pm.bitmapAddr placement n 1 =
    Pm.bitmapAddr placement n 0 + (n / 2 ^ 0 + 7) / 8 := rfl
  simp only [firstTablePage, kernelPdPage]
  omega

theorem BootFits.bounds {placement : Nat} (h : BootFits placement n initrdEnd) :
    4 < firstTablePage placement n ∧ firstTablePage placement n +
        tablesFor (identityPages placement n initrdEnd) + 1 ≤ identityPages placement n initrdEnd ∧
      identityPages placement n initrdEnd < 768 * 1024 ∧
      initrdEnd + pageSize ≤ 4096 * identityPages placement n initrdEnd := by
  have hinitrd : (initrdEnd + 0x1FFF) / 0x1000 ≤ identityPages placement n initrdEnd :=
    Nat.le_max_right _ _
  have hframes := h.frames
  have hlow := h.low
  simp only [kheapStart, pageSize] at *
  exact ⟨firstTablePage_pos placement (by omega), tables_below _ (Nat.le_max_left _ _), by omega,
    by omega⟩

theorem heapMade (hu : Unbooted s₀) (hb : BootFits s₀.placementAddress n initrdEnd) :
    ∃ vaddr s₁ m s, mapIdentity n initrdEnd s₀ = some (vaddr, s₁) ∧
      enablePaging initrdEnd s₁ = some s ∧ HeapMade s₀.placementAddress n initrdEnd m s ∧
      m.phys = s₀.phys := by
  obtain ⟨hfirst, hbelow, hlow, hinitrd⟩ := hb.bounds
  have hsmall := hb.small
  have hframes := hb.frames
  have hword : 4096 * (768 * 1024) + 8192 < wordSize := by decide
  obtain ⟨s₁, h1, hmap, -⟩ := mapIdentity_spec hu (n := n) (by omega) hlow.le (by omega)
  have hmap' : Mapping (firstTablePage s₀.placementAddress n) n
      (tablesFor (identityPages s₀.placementAddress n initrdEnd))
      (identityPages s₀.placementAddress n initrdEnd) 0 (earlySpans s₀.placementAddress n)
      { s₁ with placementAddress := add32 initrdEnd pageSize } :=
    ⟨⟨hmap.kheap, hmap.kernelPd, hmap.tables, hmap.entries, hmap.paddrPde, hmap.others, hmap.placed,
      hmap.made, hmap.held, hmap.directories⟩, hmap.layout, hmap.nframes, hmap.free, hmap.page,
      hmap.heapPage⟩
  have htables : tablesFor (identityPages s₀.placementAddress n initrdEnd) ≤ 768 := by
    simp only [tablesFor]
    omega
  obtain ⟨m, h2, hm, hplace⟩ := hmap'.mapKheapFrames hfirst.le htables hframes
  have hq : m.placementAddress = initrdEnd + pageSize := by
    rw [hplace]
    exact add32_eq (by omega)
  have h3 := makeKheap_placed hm.kheap hq (by simp only [pageSize]; omega) (by
    simp only [heapSize, nodeSize]
    omega)
  refine ⟨_, s₁, m, _, h1, ?_, ⟨hb, hm, rfl⟩, ?_⟩
  · rw [enablePaging, h2]
    exact h3
  · obtain ⟨⟨_, x⟩, hx, rfl⟩ := Option.map_eq_some_iff.mp h2
    rw [← mapIdentity_phys h1]
    exact whileBelow_keeps (fun x => x.phys = s₁.phys)
      (fun v x x' hx hk => (mapKernelPage_phys hk).trans hx) rfl hx

theorem HeapMade.world {placement : Nat} {m : VmState} (h : HeapMade placement n initrdEnd m s) :
    World s := by
  obtain ⟨hfirst, hbelow, hlow, hinitrd⟩ := h.fits.bounds
  have hfits := h.fits.low
  exact h.mapping.world hfirst (by omega) h.fits.small h.fits.frames
    (by simp only [heapSize, nodeSize, kheapStart] at *; omega) h.state

/-- A boot in which every allocation succeeds. -/
structure Boots (n initrdEnd : Nat) (s₀ s : VmState) : Prop where
  unbooted : Unbooted s₀
  fits : BootFits s₀.placementAddress n initrdEnd
  run : vmInitialize n initrdEnd s₀ = some s
  nonzero : 0 ∉ s.objects

theorem Boots.cases (h : Boots n initrdEnd s₀ s) :
    ∃ m s₁ pd s₂, HeapMade s₀.placementAddress n initrdEnd m s₁ ∧
      clonePageDirectory s₁.kernelPd s₁ = some (pd, s₂) ∧ s = { s₂ with currentPd := pd } := by
  obtain ⟨vaddr, s₁, m, s₂, h1, h2, hm, -⟩ := heapMade h.unbooted h.fits
  have hrun := h.run
  simp only [vmInitialize, h1, h2, Option.bind_eq_bind, Option.bind_some] at hrun
  obtain ⟨⟨pd, s₃⟩, h3, hrun⟩ := Option.bind_eq_some_iff.mp hrun
  exact ⟨m, s₂, pd, s₃, hm, h3, (Option.some.inj hrun).symm⟩

theorem World.switch (h : World s) (pd : Nat) : World { s with currentPd := pd } :=
  h.congr (h.sound.congr rfl rfl (List.Perm.refl _))
    (h.owned.congr rfl rfl rfl h.owned.pointers) rfl rfl rfl rfl

theorem Boots.world (h : Boots n initrdEnd s₀ s) : World s := by
  obtain ⟨m, s₁, pd, s₂, hm, hc, rfl⟩ := h.cases
  exact (hm.world.clone hm.world.kernelDirectory hc h.nonzero).switch pd

-- ---------------------------------------------------------------------------
-- A machine that boots
-- ---------------------------------------------------------------------------

/-- `vm_initialize` succeeds if the heap has a block for the clone. -/
theorem boots_of_block {k : Vm.KHeap.KState} {pd : Nat} (hu : Unbooted s₀)
    (hb : BootFits s₀.placementAddress n initrdEnd)
    (hblock : ∀ m : VmState, m.phys = s₀.phys → Vm.KHeap.ikmalloc pageDirectorySize true
      (kheapInit (initrdEnd + pageSize) (kernelMem m)) = some (pd, k)) (hpd : kheapStart ≤ pd) :
    ∃ m s, Boots n initrdEnd s₀ s ∧
      Mapping (firstTablePage s₀.placementAddress n) n
        (tablesFor (identityPages s₀.placementAddress n initrdEnd))
        (identityPages s₀.placementAddress n initrdEnd) 256 (earlySpans s₀.placementAddress n) m ∧
      s.kheap = some k ∧ s.frames = m.frames ∧ s.kernelPd = m.kernelPd ∧
      s.directories = [pd, s.kernelPd] ∧ s.currentPd = pd ∧
      ∀ d ∈ s.directories, ∀ i < pdEntries, (s.pageDirectories d).tables i =
        kernelTable (firstTablePage s₀.placementAddress n)
          (tablesFor (identityPages s₀.placementAddress n initrdEnd)) i := by
  obtain ⟨vaddr, s₁, m, s₂, h1, h2, hm, hphys⟩ := heapMade hu hb
  obtain ⟨hfirst, hbelow, hlow, -⟩ := hb.bounds
  obtain ⟨h0, hobj, -⟩ := hm.mapping.objects hfirst (by omega)
  have hkernel : m.kernelPd < kheapStart := hobj _ (List.mem_append_right _ (by
    rw [hm.mapping.directories]
    exact List.mem_singleton_self _))
  have hs2 : s₂.kernelPd = m.kernelPd ∧ s₂.frames = m.frames ∧ s₂.made = m.made ∧
      s₂.directories = [m.kernelPd] := by
    rw [hm.state]
    exact ⟨rfl, rfl, rfl, hm.mapping.directories⟩
  have hi := ikmalloc_heap (s := s₂) (by rw [hm.state]) (hblock m hphys)
  obtain ⟨ds, hclone⟩ := clone_links hi (by rw [hs2.1]; omega) (by rw [hs2.1]; omega)
    fun i _ => .inr rfl
  obtain ⟨s₃, hs3⟩ : ∃ s₃, s₃ = { s₂ with
      kheap := some k
      held := if pd = 0 then s₂.held else ⟨pd - Vm.headerSize, pageDirectorySize⟩ :: s₂.held
      pageDirectories := ds
      directories := pd :: s₂.directories } := ⟨_, rfl⟩
  have hrun : vmInitialize n initrdEnd s₀ = some { s₃ with currentPd := pd } := by
    simp only [vmInitialize, h1, h2, Option.bind_eq_bind, Option.bind_some, hclone, hs3]
  have hmade : s₃.made = m.made := by rw [hs3]; exact hs2.2.2.1
  have hdirs : s₃.directories = [pd, m.kernelPd] := by rw [hs3, hs2.2.2.2]
  have hkernel3 : s₃.kernelPd = m.kernelPd := by rw [hs3]; exact hs2.1
  have hnonzero : 0 ∉ s₃.objects := by
    rw [VmState.objects, hmade, hdirs]
    intro hin
    rcases List.mem_append.mp hin with hin | hin
    · exact h0 (List.mem_append_left _ hin)
    · rcases List.mem_cons.mp hin with rfl | hin
      · exact absurd hpd (by decide)
      · exact h0 (List.mem_append_right _ (hm.mapping.directories ▸ hin))
  refine ⟨m, { s₃ with currentPd := pd }, ⟨hu, hb, hrun, hnonzero⟩, hm.mapping, by rw [hs3],
    by rw [hs3]; exact hs2.2.1, hkernel3, hdirs.trans (by rw [hkernel3]), rfl, ?_⟩
  -- all tables of the clone are linked
  have hd := clonePageDirectory_spec (hm.world.source hm.world.kernelDirectory)
    (hs3 ▸ hclone : clonePageDirectory s₂.kernelPd s₂ = some (pd, s₃)) hnonzero
  have htables : ∀ i, (s₂.pageDirectories s₂.kernelPd).tables i =
      kernelTable (firstTablePage s₀.placementAddress n)
        (tablesFor (identityPages s₀.placementAddress n initrdEnd)) i := by
    rw [hm.state]
    exact hm.mapping.tables
  intro d hin i hlt
  have hin : d ∈ s₃.directories := hin
  rw [hdirs] at hin
  rcases List.mem_cons.mp hin with rfl | hin
  · rw [← htables i]
    cases hd.pdes i hlt with
    | absent hsrc htable => exact htable.trans hsrc.symm
    | linked _ _ htable => exact htable
    | copied _ hne => exact absurd rfl hne
  · rw [← htables i, List.mem_singleton.mp hin, hs2.1]
    exact congrArg (PageDirectory.tables · i) (hd.others _ (by omega))

theorem unbooted_fits : BootFits unbooted.placementAddress 0x8000 0x1F0000 :=
  ⟨by decide, by decide +kernel, by decide +kernel⟩

/-- The heap in memory full of zeros. -/
def firstHeap : Vm.KHeap.KState := kheapInit (0x1F0000 + pageSize) fun _ => 0

theorem firstHeap_bump : Vm.KHeap.Bump firstHeap [] kheapStart :=
  Vm.KHeap.Boot.init_bump ⟨0x1F0000 + pageSize, fun _ => 0, by decide⟩

theorem firstHeap_clone : ∃ k₁ held,
    Vm.KHeap.ikmalloc pageDirectorySize true firstHeap = some (0xC0001000, k₁) ∧
    Vm.KHeap.Bump k₁ held (0xC0001000 + pageDirectorySize) :=
  firstHeap_bump.next (by decide) (by decide) (by decide +kernel)

/-- Blocks for a clone, a table, another clone and a copy of the table. -/
theorem firstHeap_blocks : ∃ k₁ k₂ k₃ k₄,
    Vm.KHeap.ikmalloc pageDirectorySize true firstHeap = some (0xC0001000, k₁) ∧
    Vm.KHeap.ikmalloc pageTableSize true k₁ = some (0xC0004000, k₂) ∧
    Vm.KHeap.ikmalloc pageDirectorySize true k₂ = some (0xC0006000, k₃) ∧
    Vm.KHeap.ikmalloc pageTableSize true k₃ = some (0xC0009000, k₄) := by
  have hpd : Vm.KHeap.NoWrap true pageDirectorySize := by decide
  have hpt : Vm.KHeap.NoWrap true pageTableSize := by decide
  obtain ⟨k₁, _, h1, hb⟩ := firstHeap_clone
  obtain ⟨k₂, _, h2, hb⟩ := hb.next (p := 0xC0004000) hpt (by decide) (by decide +kernel)
  obtain ⟨k₃, _, h3, hb⟩ := hb.next (p := 0xC0006000) hpd (by decide) (by decide +kernel)
  obtain ⟨k₄, _, h4, -⟩ := hb.next (p := 0xC0009000) hpt (by decide) (by decide +kernel)
  exact ⟨k₁, k₂, k₃, k₄, h1, h2, h3, h4⟩

theorem kernelMem_zero {m : VmState} (h : m.phys = fun _ => 0) : kernelMem m = fun _ => 0 := by
  funext a
  rw [kernelMem, h]

/-- The machine `unbooted` after its boot: `p` pages are mapped identically. -/
structure SmallBoot (k : Vm.KHeap.KState) (first p : Nat) (s : VmState) : Prop where
  boots : Boots 0x8000 0x1F0000 unbooted s
  kheap : s.kheap = some k
  few : p ≤ 1000
  behind : 4 < first
  layout : s.frames.Layout
  nframes : s.frames.nframes = 0x8000
  free : freeFrames s.frames = {f | p + 256 ≤ f ∧ f < 0x8000}
  kernelPd : s.kernelPd < kheapStart
  directories : s.directories = [0xC0001000, s.kernelPd]
  currentPd : s.currentPd = 0xC0001000
  tables : ∀ d ∈ s.directories, ∀ i < pdEntries,
    (s.pageDirectories d).tables i = kernelTable first (tablesFor p) i

theorem smallBoot {k : Vm.KHeap.KState}
    (h : Vm.KHeap.ikmalloc pageDirectorySize true firstHeap = some (0xC0001000, k)) :
    ∃ first p s, SmallBoot k first p s := by
  obtain ⟨m, s, hb, hm, hk, hframes, hkernel, hdirs, hcurrent, htables⟩ :=
    boots_of_block unbooted_empty unbooted_fits
      (fun m hphys => by rw [kernelMem_zero hphys]; exact h) (by decide)
  have hkernelPd : s.kernelPd < kheapStart := by
    rw [hkernel, hm.kernelPd]
    decide +kernel
  have hfew : identityPages unbooted.placementAddress 0x8000 0x1F0000 ≤ 1000 := by decide +kernel
  have hfirst : 4 < firstTablePage unbooted.placementAddress 0x8000 := by decide +kernel
  generalize identityPages unbooted.placementAddress 0x8000 0x1F0000 = p at hm htables hfew
  generalize firstTablePage unbooted.placementAddress 0x8000 = first at hm htables hfirst
  exact ⟨first, p, s, hb, hk, hfew, hfirst, hframes ▸ hm.layout, hframes ▸ hm.nframes,
    hframes ▸ hm.free, hkernelPd, hdirs, hcurrent, htables⟩

section
variable {k : Vm.KHeap.KState} {first p : Nat} (h : SmallBoot k first p s)
include h

theorem SmallBoot.current : s.currentPd ∈ s.directories := by
  rw [h.currentPd, h.directories]
  exact List.mem_cons_self

theorem SmallBoot.kernel_ne {d : Nat} (hd : kheapStart ≤ d) : s.kernelPd ≠ d := by
  rintro rfl
  exact absurd h.kernelPd (Nat.not_lt.mpr hd)

theorem SmallBoot.least : IsLeast (freeFrames s.frames) (p + 256) := by
  have := h.few
  rw [h.free]
  exact ⟨⟨le_rfl, by omega⟩, fun f hf => hf.1⟩

theorem SmallBoot.frames_left : 30000 ≤ (freeFrames s.frames).ncard := by
  have := h.few
  rw [h.free]
  show 30000 ≤ (Set.Ico (p + 256) 0x8000).ncard
  rw [Set.ncard_Ico_nat]
  omega

theorem SmallBoot.heapTable : (s.pageDirectories s.kernelPd).tables 768 ≠ 0 := by
  have hfirst := h.behind
  rw [h.tables _ h.boots.world.kernelDirectory 768 (by decide), Paging.kernelTable, if_pos rfl]
  split <;> omega

theorem SmallBoot.absent {d i : Nat} (hd : d ∈ s.directories) (hlow : 1 ≤ i) (hi : i < pdEntries)
    (hheap : i ≠ 768) : (s.pageDirectories d).tables i = 0 := by
  have hfew := h.few
  rw [h.tables d hd i hi, Paging.kernelTable, if_neg, if_neg hheap]
  simp only [tablesFor]
  omega

end

/-- `get_page` makes the table `t` at an index of `pd`, and `alloc_frame` gives the page
the frame `f`. -/
structure PageMade (s s₂ s₃ : VmState) (k : Vm.KHeap.KState) (vaddr pd t f : Nat)
    (kernel writable : Bool) : Prop where
  getPage : getPage vaddr pd true s = some (⟨t, ptIndex vaddr⟩, s₂)
  made₂ : s₂.made = t :: s.made
  directories₂ : s₂.directories = s.directories
  allocFrame : allocFrame ⟨t, ptIndex vaddr⟩ kernel writable s₂ = some s₃
  made : s₃.made = t :: s.made
  directories : s₃.directories = s.directories
  kernelPd : s₃.kernelPd = s.kernelPd
  kheap : s₃.kheap = some k
  table : ∀ d i, (s₃.pageDirectories d).tables i =
    if d = pd ∧ i = pdIndex vaddr then t else (s.pageDirectories d).tables i
  pde : (s₃.pageDirectories pd).entries (pdIndex vaddr) = kernelPhys t s ||| pagePresent ||| pageRw
  pte : s₃.entry ⟨t, ptIndex vaddr⟩ = frameEntry f kernel writable
  layout : s₃.frames.Layout
  nframes : s₃.frames.nframes = s.frames.nframes
  free : freeFrames s₃.frames = freeFrames s.frames \ {f}

theorem page_made {k k' : Vm.KHeap.KState} {vaddr pd t f : Nat} (hk : s.kheap = some k)
    (hi : Vm.KHeap.ikmalloc pageTableSize true k = some (t, k')) (ht : t ≠ 0)
    (h0 : (s.pageDirectories pd).tables (pdIndex vaddr) = 0) (hl : s.frames.Layout)
    (hf : IsLeast (freeFrames s.frames) f) (kernel writable : Bool) :
    ∃ s₂ s₃, PageMade s s₂ s₃ k' vaddr pd t f kernel writable := by
  have hg := getPage_new h0 (ikmalloc_heap hk hi) ht
  rw [if_neg ht] at hg
  obtain ⟨s₂, hs₂⟩ : ∃ s₂, s₂ = VmState.setPde { VmState.setTable { s with
        kheap := some k'
        held := ⟨t - Vm.headerSize, pageTableSize⟩ :: s.held } t fun _ => pageRw with
      made := t :: s.made } pd (pdIndex vaddr) t (kernelPhys t s ||| pagePresent ||| pageRw) := ⟨_, rfl⟩
  have hempty : pteToPfn (s₂.entry ⟨t, ptIndex vaddr⟩) = 0 := by
    rw [hs₂]
    refine (congrArg pteToPfn (entry_setTable _ _)).trans ?_
    rw [if_pos rfl]
    exact pteToPfn_rw
  have hframes : s₂.frames = s.frames := by rw [hs₂]; rfl
  obtain ⟨frames, hl', hnframes, hfree, ha⟩ :=
    allocFrame_new (hframes ▸ hl) hempty (hframes ▸ hf) kernel writable
  rw [hframes] at hfree hnframes
  refine ⟨s₂, _, hs₂ ▸ hg, by rw [hs₂]; rfl, by rw [hs₂]; rfl, ha, by rw [hs₂]; rfl,
    by rw [hs₂]; rfl, by rw [hs₂]; rfl, by rw [hs₂]; rfl, fun d i => ?_, ?_, entry_setEntry_self, hl',
    hnframes, hfree⟩
  · rw [hs₂]
    exact setPde_table _ _ _ d i _
  · rw [hs₂]
    exact (setPde_entry _ _ _ pd _ _).trans (if_pos ⟨rfl, rfl⟩)

section
variable {k : Vm.KHeap.KState} {s₂ s₃ : VmState} {vaddr pd t f : Nat} {kernel writable : Bool}
variable (h : PageMade s s₂ s₃ k vaddr pd t f kernel writable)
include h

theorem PageMade.nonzero₂ (ht : t ≠ 0) (h0 : 0 ∉ s.objects) : 0 ∉ s₂.objects := by
  rw [VmState.objects, h.made₂, h.directories₂, List.cons_append]
  intro hin
  rcases List.mem_cons.mp hin with he | hin
  · exact ht he.symm
  · exact h0 hin

theorem PageMade.nonzero (ht : t ≠ 0) (h0 : 0 ∉ s.objects) : 0 ∉ s₃.objects := by
  have h2 := h.nonzero₂ ht h0
  rw [VmState.objects, h.made₂, h.directories₂] at h2
  rwa [VmState.objects, h.made, h.directories]

theorem PageMade.world (hw : World s) : World s₃ := (hw.getPage h.getPage).allocFrame h.allocFrame

theorem PageMade.frameAt (hf : f < 2 ^ 20) : frameAt s₃ pd vaddr = some f := by
  rw [frameAt_eq_some, h.pde, h.table, if_pos ⟨rfl, rfl⟩, h.pte]
  exact ⟨(newPde_flags _).1, frameEntry_present _ _ _, pteToPfn_frameEntry hf _ _⟩

end

/-- A page at `0x40000000` in the directory that the kernel runs on after the boot, and
a clone of the directory. -/
structure OwnPage (kernel writable : Bool) (s₁ s₂ s₃ s₄ : VmState) : Prop where
  boots : Boots 0x8000 0x1F0000 unbooted s₁
  current : s₁.currentPd ∈ s₁.directories
  page : ∃ k f, 0 < f ∧ f < 2 ^ 20 ∧
    PageMade s₁ s₂ s₃ k 0x40000000 s₁.currentPd 0xC0004000 f kernel writable
  kernelTable : (s₃.pageDirectories s₃.kernelPd).tables 256 = 0
  clone : clonePageDirectory s₁.currentPd s₃ = some (0xC0006000, s₄)
  nonzero : 0 ∉ s₄.objects

theorem own_page (kernel writable : Bool) : ∃ s₁ s₂ s₃ s₄, OwnPage kernel writable s₁ s₂ s₃ s₄ := by
  obtain ⟨k₁, k₂, k₃, k₄, h1, h2, h3, h4⟩ := firstHeap_blocks
  obtain ⟨first, p, s₁, hb⟩ := smallBoot h1
  have hfew := hb.few
  have hin : s₁.kernelPd ∈ s₁.directories := hb.boots.world.kernelDirectory
  have hne : s₁.kernelPd ≠ s₁.currentPd := hb.kernel_ne (by rw [hb.currentPd]; decide)
  have habsent : ∀ d ∈ s₁.directories, (s₁.pageDirectories d).tables 256 = 0 :=
    fun d hd => hb.absent hd (by decide) (by decide) (by decide)
  obtain ⟨s₂, s₃, hp⟩ := page_made hb.kheap h2 (by decide)
    (show (s₁.pageDirectories s₁.currentPd).tables (pdIndex 0x40000000) = 0 from
      habsent _ hb.current) hb.layout hb.least kernel writable
  have htable : (s₃.pageDirectories s₁.currentPd).tables 256 = 0xC0004000 := by
    rw [hp.table]
    exact if_pos ⟨rfl, rfl⟩
  have hkernel : ∀ i, (s₃.pageDirectories s₃.kernelPd).tables i =
      (s₁.pageDirectories s₁.kernelPd).tables i := by
    intro i
    rw [hp.kernelPd, hp.table, if_neg fun h => hne h.1]
  have hlinks : ∀ j < pdEntries, j ≠ 256 → Links s₃ s₁.currentPd j := by
    intro j hj hne
    refine .inr ?_
    rw [hkernel, hp.table, if_neg fun h => hne h.2, hb.tables _ hb.current j hj, hb.tables _ hin j hj]
  have hown : ¬ Links s₃ s₁.currentPd 256 := by
    rw [Links, htable, hkernel, habsent _ hin]
    decide
  have hfree : mappedCount s₃ ((s₃.pageDirectories s₁.currentPd).tables 256) (List.range ptEntries) ≤
      (freeFrames s₃.frames).ncard := by
    refine List.countP_le_length.trans ?_
    rw [List.length_range, hp.free, Set.ncard_sdiff_singleton_of_mem hb.least.1, hb.free]
    show ptEntries ≤ (Set.Ico (p + 256) 0x8000).ncard - 1
    rw [Set.ncard_Ico_nat]
    simp only [ptEntries]
    omega
  obtain ⟨s₄, hclone, hmade, hdirs⟩ := clone_one hp.kheap h3 h4 hp.layout
    (by rw [hp.nframes, hb.nframes]; decide) (by rw [hb.currentPd]; decide)
    (by rw [hp.kernelPd]; exact hb.kernel_ne (by decide)) (by decide) hown hlinks
    (by rw [htable]; decide) hfree
  refine ⟨s₁, s₂, s₃, s₄, hb.boots, hb.current, ⟨k₂, p + 256, by omega, by omega, hp⟩,
    (hkernel 256).trans (habsent _ hin), hclone, ?_⟩
  rw [VmState.objects, hmade, hdirs, hp.made, hp.directories]
  intro h0
  simp only [List.cons_append, List.mem_cons, List.mem_append] at h0
  rcases h0 with h0 | h0 | h0 | h0 | h0
  · exact absurd h0 (by decide)
  · exact absurd h0 (by decide)
  · exact hb.boots.nonzero (List.mem_append_left _ h0)
  · exact absurd h0 (by decide)
  · exact hb.boots.nonzero (List.mem_append_right _ h0)

end

end Shigure.Paging
