import Shigure.Paging.Walks

/-!
# What is placed before there is a heap

`placement_address` first moves behind the kernel, so that the bitmaps, the
kernel's directory and its tables are apart. It is then set behind the initrd,
where the `heap_t` and its node are placed whatever is there.
-/

namespace Shigure.Paging

open Pm (FrameState frameSize freeFrames bitmapAddr maxOrder)
open Vm (pageSize)
open Vm.KHeap (kheapStart heapSize nodeSize)

/-- What `ikmalloc` has placed is pairwise disjoint, disjoint from the initrd and mapped
identically. -/
structure EarlyApart (initrd : Span) (s : VmState) : Prop where
  disjoint : s.placed.Pairwise Span.Disjoint
  initrd : ∀ x ∈ s.placed, x.Disjoint initrd
  mapped : ∀ x ∈ s.placed, ∀ a ∈ x, physAddr s s.kernelPd a = some a

def bitmapArea (placement n : Nat) : Span :=
  ⟨bitmapAddr placement n 0, bitmapAddr placement n (maxOrder + 1) - bitmapAddr placement n 0⟩

def directoryArea (placement n : Nat) : Span := ⟨4096 * kernelPdPage placement n, pageDirectorySize⟩

/-- The table of the heap and those of the identity mapping. -/
def tableArea (placement n pages : Nat) : Span :=
  ⟨4096 * (kernelPdPage placement n + 3), 4096 * (tablesFor pages + 1)⟩

/-- A part of memory that none of the areas reaches into. -/
def Clear (placement n pages : Nat) (x : Span) : Prop :=
  (bitmapArea placement n).Disjoint x ∧ (directoryArea placement n).Disjoint x ∧
    (tableArea placement n pages).Disjoint x

instance (placement n pages : Nat) (x : Span) : Decidable (Clear placement n pages x) :=
  inferInstanceAs (Decidable (_ ∧ _))

/-- The 40 bytes for the `heap_t` and the node, a page behind the initrd, are clear and
mapped, and the initrd is clear. -/
structure EarlyClear (placement n initrdStart initrdEnd : Nat) : Prop where
  heap : Clear placement n (identityPages placement n initrdEnd)
    ⟨initrdEnd + pageSize, heapSize + nodeSize⟩
  mapped : initrdEnd + pageSize + heapSize + nodeSize ≤ 4096 * identityPages placement n initrdEnd
  initrd : Clear placement n (identityPages placement n initrdEnd)
    ⟨initrdStart, initrdEnd - initrdStart⟩

def placedSpans (placement n pages : Nat) : List Span :=
  earlySpans placement n ++
    (List.range (tablesFor pages)).map fun i => ⟨4096 * (firstTablePage placement n + i), 4096⟩

section
variable {placement n pages initrdStart initrdEnd a : Nat} {x y : Span} {s m : VmState}

-- ---------------------------------------------------------------------------
-- The areas
-- ---------------------------------------------------------------------------

theorem bitmapArea_le : bitmapAddr placement n 0 ≤ bitmapAddr placement n (maxOrder + 1) ∧
    bitmapAddr placement n (maxOrder + 1) ≤ 4096 * kernelPdPage placement n := by
  refine ⟨bitmapAddr_mono (by decide), ?_⟩
  simp only [kernelPdPage]
  omega

theorem exists_bitmap (hlo : bitmapAddr placement n 0 ≤ a) :
    ∀ k, a < bitmapAddr placement n k → ∃ i < k, a ∈ bitmapSpan placement n i := by
  intro k
  induction k with
  | zero => exact fun hlt => absurd hlo (Nat.not_le.mpr hlt)
  | succ k ih =>
    intro hlt
    by_cases hk : a < bitmapAddr placement n k
    · obtain ⟨i, hi, hin⟩ := ih hk
      exact ⟨i, by omega, hin⟩
    · exact ⟨k, by omega, Nat.not_lt.mp hk, hlt⟩

theorem mem_bitmapArea : a ∈ bitmapArea placement n ↔
    ∃ i ∈ Pm.orders, a ∈ bitmapSpan placement n i := by
  have hle : bitmapAddr placement n 0 ≤ bitmapAddr placement n (maxOrder + 1) := bitmapArea_le.1
  constructor
  · rintro ⟨hlo, hhi⟩
    rw [Span.stop, bitmapArea, Nat.add_sub_cancel' hle] at hhi
    obtain ⟨i, hi, hin⟩ := exists_bitmap hlo _ hhi
    exact ⟨i, List.mem_range.mpr hi, hin⟩
  · rintro ⟨i, hi, hlo, hhi⟩
    have h0 : bitmapAddr placement n 0 ≤ bitmapAddr placement n i := bitmapAddr_mono (Nat.zero_le i)
    have h1 : bitmapAddr placement n (i + 1) ≤ bitmapAddr placement n (maxOrder + 1) :=
      bitmapAddr_mono (List.mem_range.mp hi)
    refine ⟨h0.trans hlo, ?_⟩
    rw [Span.stop, bitmapArea, Nat.add_sub_cancel' hle]
    exact hhi.trans_le h1

theorem mem_tableArea : a ∈ tableArea placement n pages ↔
    a ∈ (⟨4096 * (kernelPdPage placement n + 3), pageTableSize⟩ : Span) ∨
    ∃ i < tablesFor pages, a ∈ (⟨4096 * (firstTablePage placement n + i), 4096⟩ : Span) := by
  simp only [tableArea, Span.mem_iff, firstTablePage, pageTableSize]
  generalize kernelPdPage placement n = k
  generalize tablesFor pages = c
  constructor
  · rintro ⟨hlo, hhi⟩
    by_cases hlt : a / 4096 < k + 4
    · clear hhi
      exact .inl ⟨hlo, by omega⟩
    · have hi : a / 4096 - (k + 4) < c := by omega
      clear hhi
      exact .inr ⟨a / 4096 - (k + 4), hi, by omega, by omega⟩
  · rintro (⟨hlo, hhi⟩ | ⟨i, hi, hlo, hhi⟩)
    · refine ⟨hlo, hhi.trans_le (Nat.add_le_add_left ?_ _)⟩
      exact Nat.le_mul_of_pos_right _ (Nat.succ_pos c)
    · exact ⟨by omega, hhi.trans_le (by omega)⟩

theorem mem_placedSpans : (∃ x ∈ placedSpans placement n pages, a ∈ x) ↔
    a ∈ bitmapArea placement n ∨ a ∈ directoryArea placement n ∨ a ∈ tableArea placement n pages := by
  rw [mem_bitmapArea, mem_tableArea]
  simp only [placedSpans, earlySpans, List.mem_append, List.mem_map, List.mem_cons, List.not_mem_nil,
    List.mem_range, or_false, directoryArea]
  constructor
  · rintro ⟨x, ((⟨i, hi, rfl⟩ | rfl | rfl) | ⟨i, hi, rfl⟩), ha⟩
    · exact .inl ⟨i, hi, ha⟩
    · exact .inr (.inl ha)
    · exact .inr (.inr (.inl ha))
    · exact .inr (.inr (.inr ⟨i, hi, ha⟩))
  · rintro (⟨i, hi, ha⟩ | ha | ha | ⟨i, hi, ha⟩)
    · exact ⟨_, .inl (.inl ⟨i, hi, rfl⟩), ha⟩
    · exact ⟨_, .inl (.inr (.inl rfl)), ha⟩
    · exact ⟨_, .inl (.inr (.inr rfl)), ha⟩
    · exact ⟨_, .inr ⟨i, hi, rfl⟩, ha⟩

theorem clear_iff : Clear placement n pages y ↔ ∀ x ∈ placedSpans placement n pages, x.Disjoint y := by
  simp only [Clear, Span.disjoint_iff]
  constructor
  · rintro ⟨h1, h2, h3⟩ x hx a ha
    rcases mem_placedSpans.mp ⟨x, hx, ha⟩ with hin | hin | hin
    · exact h1 a hin
    · exact h2 a hin
    · exact h3 a hin
  · intro h
    refine ⟨fun a ha => ?_, fun a ha => ?_, fun a ha => ?_⟩
    · obtain ⟨x, hx, hin⟩ := mem_placedSpans.mpr (.inl ha)
      exact h x hx a hin
    · obtain ⟨x, hx, hin⟩ := mem_placedSpans.mpr (.inr (.inl ha))
      exact h x hx a hin
    · obtain ⟨x, hx, hin⟩ := mem_placedSpans.mpr (.inr (.inr ha))
      exact h x hx a hin

theorem earlySpans_ordered : (earlySpans placement n).Pairwise fun x y => x.stop ≤ y.base := by
  have hend : bitmapAddr placement n (maxOrder + 1) ≤ 4096 * kernelPdPage placement n := bitmapArea_le.2
  refine List.pairwise_append.mpr ⟨?_, ?_, fun x hx y hy => ?_⟩
  · exact List.pairwise_map.mpr (List.pairwise_lt_range.imp fun h => bitmapAddr_mono h)
  · refine List.pairwise_pair.mpr ?_
    simp only [Span.stop, pageDirectorySize]
    omega
  · obtain ⟨i, hi, rfl⟩ := List.mem_map.mp hx
    have hstop : (bitmapSpan placement n i).stop ≤ 4096 * kernelPdPage placement n :=
      le_trans (bitmapAddr_mono (List.mem_range.mp hi)) hend
    refine hstop.trans ?_
    simp only [List.mem_cons, List.not_mem_nil, or_false] at hy
    rcases hy with rfl | rfl
    · exact le_rfl
    · simp only
      omega

theorem placedSpans_disjoint : (placedSpans placement n pages).Pairwise Span.Disjoint := by
  refine List.Pairwise.imp (R := fun x y => x.stop ≤ y.base) (fun h => .inr (.inr (.inl h))) ?_
  refine List.pairwise_append.mpr ⟨earlySpans_ordered, ?_, fun x hx y hy => ?_⟩
  · refine List.pairwise_map.mpr (List.pairwise_lt_range.imp fun h => ?_)
    simp only [Span.stop]
    omega
  · obtain ⟨i, -, rfl⟩ := List.mem_map.mp hy
    refine (earlySpans_below hx).trans ?_
    simp only
    omega

theorem placedSpans_below (hx : x ∈ placedSpans placement n pages)
    (hp : kernelPages (firstTablePage placement n) ≤ pages) : x.stop ≤ 4096 * pages := by
  have hbelow := tables_below _ hp
  rcases List.mem_append.mp hx with hx | hx
  · have hstop := earlySpans_below hx
    rw [Span.stop]
    omega
  · obtain ⟨i, hi, rfl⟩ := List.mem_map.mp hx
    have hi := List.mem_range.mp hi
    simp only [Span.stop]
    omega

-- ---------------------------------------------------------------------------
-- The mapping
-- ---------------------------------------------------------------------------

section
variable {first c p k : Nat} {early : List Span}

theorem Mapping.physAddr_page (h : Mapping first n c p k early m) (hf : 4 < first) (ha : a < 4096 * p)
    (hc : p ≤ 1024 * c) (hp : p ≤ 2 ^ 20) : physAddr m m.kernelPd a = some a := by
  have hq := (h.mapsTo_page hf (show a / 4096 < p by omega) hc (by omega)).physAddr
    (show a % 4096 < frameSize from Nat.mod_lt _ (by decide))
  rwa [Nat.div_add_mod, Nat.mul_comm, frameSize, Nat.div_add_mod] at hq

/-- Between the identity mapping and the heap nothing is mapped. -/
theorem Mapping.frameAt_beyond (h : Mapping first n c p k early m) (hlo : 4096 * p ≤ a)
    (ha : a < kheapStart) : frameAt m m.kernelPd a = none := by
  have hi : pdIndex a < 768 := by
    simp only [pdIndex, Nat.shiftRight_eq_div_pow, kheapStart] at *
    omega
  by_cases hc : pdIndex a < c
  · refine frameAt_empty ?_
    have hpage : a / frameSize = 1024 * pdIndex a + ptIndex a := page_eq
    rw [h.tables, kernelTable, if_pos hc, VmState.entry, h.page _ hc, if_neg]
    simp only [frameSize] at hpage ⊢
    omega
  · refine frameAt_absent ?_
    rw [h.entries, kernelEntry, if_pos (by rw [kernelTable, if_neg hc, if_neg (by omega)])]
    decide

end

-- ---------------------------------------------------------------------------
-- All that is placed
-- ---------------------------------------------------------------------------

def heapSpans (initrdEnd : Nat) : List Span :=
  [⟨initrdEnd + pageSize, heapSize⟩, ⟨initrdEnd + pageSize + heapSize, nodeSize⟩]

theorem HeapMade.placed (h : HeapMade placement n initrdEnd m s) :
    s.placed = placedSpans placement n (identityPages placement n initrdEnd) ++ heapSpans initrdEnd := by
  rw [h.state]
  simp only [h.mapping.placed, placedSpans, heapSpans]

theorem heapSpans_disjoint : (∀ y ∈ heapSpans initrdEnd, x.Disjoint y) ↔
    x.Disjoint ⟨initrdEnd + pageSize, heapSize + nodeSize⟩ := by
  simp only [heapSpans, List.mem_cons, List.not_mem_nil, or_false, forall_eq_or_imp, forall_eq,
    Span.Disjoint, Span.stop, heapSize, nodeSize]
  omega

/-- What is placed early is apart exactly if the heap and the initrd are clear. -/
theorem HeapMade.apart_iff (h : HeapMade placement n initrdEnd m s) :
    EarlyApart ⟨initrdStart, initrdEnd - initrdStart⟩ s ↔
      EarlyClear placement n initrdStart initrdEnd := by
  obtain ⟨hfirst, hbelow, hlow, hinitrd⟩ := h.fits.bounds
  have hfits := h.fits.low
  have hpages : kernelPages (firstTablePage placement n) ≤ identityPages placement n initrdEnd :=
    Nat.le_max_left _ _
  have hphys : ∀ a, physAddr s s.kernelPd a = physAddr m m.kernelPd a := by
    rw [h.state]
    exact fun _ => rfl
  have hmapped : ∀ a < 4096 * identityPages placement n initrdEnd, physAddr m m.kernelPd a = some a :=
    fun a ha => h.mapping.physAddr_page hfirst ha (by simp only [tablesFor]; omega) (by omega)
  constructor
  · intro hapart
    have hd := hapart.disjoint
    rw [h.placed, List.pairwise_append] at hd
    refine ⟨clear_iff.mpr fun x hx => heapSpans_disjoint.mp (hd.2.2 x hx), ?_, clear_iff.mpr fun x hx => ?_⟩
    · -- the last byte is mapped
      by_contra hgt
      obtain ⟨a, ha⟩ : ∃ a, a = initrdEnd + pageSize + heapSize + nodeSize - 1 := ⟨_, rfl⟩
      have hin : a ∈ (⟨initrdEnd + pageSize + heapSize, nodeSize⟩ : Span) := by
        simp only [Span.mem_iff, nodeSize] at ha ⊢
        omega
      have hnone : frameAt m m.kernelPd a = none := by
        refine h.mapping.frameAt_beyond (by omega) ?_
        simp only [kheapStart, heapSize, nodeSize] at *
        omega
      have hsome := hapart.mapped _ (by
        rw [h.placed]
        exact List.mem_append_right _ (List.mem_cons_of_mem _ (List.mem_singleton_self _))) a hin
      rw [hphys, physAddr, hnone] at hsome
      cases hsome
    · exact hapart.initrd x (by rw [h.placed]; exact List.mem_append_left _ hx)
  · intro hclear
    have hin : ∀ x ∈ s.placed, x ∈ placedSpans placement n (identityPages placement n initrdEnd) ∨
        x ∈ heapSpans initrdEnd := by
      rw [h.placed]
      exact fun x hx => List.mem_append.mp hx
    refine ⟨?_, fun x hx => ?_, fun x hx a ha => ?_⟩
    · rw [h.placed]
      refine List.pairwise_append.mpr ⟨placedSpans_disjoint, ?_, fun x hx => ?_⟩
      · refine List.pairwise_pair.mpr (.inr (.inr (.inl ?_)))
        simp only [Span.stop, le_refl]
      · exact heapSpans_disjoint.mpr (clear_iff.mp hclear.heap x hx)
    · rcases hin x hx with hx | hx
      · exact clear_iff.mp hclear.initrd x hx
      · -- the heap is behind the initrd
        simp only [heapSpans, List.mem_cons, List.not_mem_nil, or_false] at hx
        rcases hx with rfl | rfl <;> simp only [Span.Disjoint, Span.stop] <;> omega
    · rw [hphys]
      refine hmapped a ?_
      have hend := hclear.mapped
      rcases hin x hx with hx | hx
      · exact ha.2.trans_le (placedSpans_below hx hpages)
      · simp only [heapSpans, List.mem_cons, List.not_mem_nil, or_false] at hx
        rcases hx with rfl | rfl <;> simp only [Span.mem_iff] at ha <;> omega

-- ---------------------------------------------------------------------------
-- What `pm_initialize` finds
-- ---------------------------------------------------------------------------

theorem intOfWord_lt {w : Nat} (h : w < wordSize) : intOfWord w < 2 ^ 31 := by
  simp only [intOfWord, wordSize] at *
  split <;> omega

theorem pmInitialize_nframes (initrdStart : Nat) (mbt : Multiboot)
    (hpos : 0 ≤ (pmInitialize initrdStart mbt).pmUsable) :
    (pmInitialize initrdStart mbt).nframes < 2 ^ 19 := by
  have hlt : (pmInitialize initrdStart mbt).pmUsable < 2 ^ 31 :=
    intOfWord_lt (Nat.mod_lt _ (by decide))
  rw [PhysicalMemory.nframes, wordOfInt, Int.tdiv_eq_ediv_of_nonneg hpos, frameSize]
  omega

/-- The boot needs fewer than 2 GiB of memory, since their size is an `int`, and frames
for the identity mapping and the heap, without which `alloc_frame` panics. What
`ikmalloc` then hands out before there is a heap is apart exactly if the heap and the
initrd are clear. -/
theorem early_regions_apart_iff {mbt : Multiboot} {initrdStart : Nat} {pm : PhysicalMemory} {s₀ : VmState}
    (hpm : pmInitialize initrdStart mbt = pm) (hu : Unbooted s₀)
    (hplace : s₀.placementAddress = pm.placementAddress) (hpos : 0 ≤ pm.pmUsable)
    (hframes : identityPages pm.placementAddress pm.nframes pm.initrdEnd + 256 ≤ pm.nframes) :
    ∃ vaddr s₁ s, mapIdentity pm.nframes pm.initrdEnd s₀ = some (vaddr, s₁) ∧
      enablePaging pm.initrdEnd s₁ = some s ∧
      (EarlyApart ⟨initrdStart, pm.initrdEnd - initrdStart⟩ s ↔
        EarlyClear pm.placementAddress pm.nframes initrdStart pm.initrdEnd) := by
  have hn : pm.nframes < 2 ^ 19 := by
    rw [← hpm] at hpos ⊢
    exact pmInitialize_nframes initrdStart mbt hpos
  have hfits : BootFits s₀.placementAddress pm.nframes pm.initrdEnd := by
    rw [hplace]
    refine ⟨by omega, ?_, hframes⟩
    simp only [kheapStart]
    omega
  obtain ⟨vaddr, s₁, m, s, h1, h2, hm, -⟩ := heapMade hu hfits
  rw [hplace] at hm
  exact ⟨vaddr, s₁, s, h1, h2, hm.apart_iff⟩

/-- A machine with 128 MiB, and an initrd that ends at `modEnd`. -/
def multiboot (modEnd : Nat) : Multiboot :=
  ⟨[⟨0, 0x9FC00, 1⟩, ⟨0x100000, 0x7EE0000, 1⟩], modEnd, 0x1FF00⟩

def unbootedAt (placement : Nat) : VmState := { unbooted with placementAddress := placement }

theorem unbootedAt_empty (placement : Nat) : Unbooted (unbootedAt placement) :=
  ⟨rfl, rfl, rfl, rfl, rfl, fun _ _ => rfl⟩

/-- An initrd that is loaded behind everything else. -/
theorem early_regions_apart_behind : ∃ vaddr s₁ s,
    mapIdentity 32445 0x142800 (unbootedAt 0x123000) = some (vaddr, s₁) ∧
    enablePaging 0x142800 s₁ = some s ∧ EarlyApart ⟨0x140000, 0x2800⟩ s := by
  have hpm : pmInitialize 0x140000 (multiboot 0x142800) =
    ⟨0x7FE0000, 0x7EBD000, 0x123000, 0x142800⟩ := by decide +kernel
  have hn : PhysicalMemory.nframes ⟨0x7FE0000, 0x7EBD000, 0x123000, 0x142800⟩ = 32445 := by
    decide +kernel
  obtain ⟨vaddr, s₁, s, h1, h2, hiff⟩ := early_regions_apart_iff hpm (unbootedAt_empty 0x123000) rfl
    (by decide) (by rw [hn]; decide +kernel)
  rw [hn] at h1 hiff
  have hclear : EarlyClear 0x123000 32445 0x140000 0x142800 :=
    ⟨by decide +kernel, by decide +kernel, by decide +kernel⟩
  exact ⟨vaddr, s₁, s, h1, h2, hiff.mpr hclear⟩

def AlwaysApart : Prop := ∀ (mbt : Multiboot) (initrdStart : Nat) (pm : PhysicalMemory) (s₀ s₁ s : VmState)
    (vaddr : Nat), pmInitialize initrdStart mbt = pm → Unbooted s₀ →
  s₀.placementAddress = pm.placementAddress →
  mapIdentity pm.nframes pm.initrdEnd s₀ = some (vaddr, s₁) → enablePaging pm.initrdEnd s₁ = some s →
  EarlyApart ⟨initrdStart, pm.initrdEnd - initrdStart⟩ s

/-- An initrd that is loaded right behind the kernel: the heap is in the first bitmap. -/
theorem heap_in_bitmap : ¬ AlwaysApart := by
  intro hall
  have hpm : pmInitialize 0x120000 (multiboot 0x122800) =
    ⟨0x7FE0000, 0x7EBD000, 0x123000, 0x122800⟩ := by decide +kernel
  have hn : PhysicalMemory.nframes ⟨0x7FE0000, 0x7EBD000, 0x123000, 0x122800⟩ = 32445 := by
    decide +kernel
  have hfits : BootFits 0x123000 32445 0x122800 :=
    ⟨by decide, by decide +kernel, by decide +kernel⟩
  obtain ⟨vaddr, s₁, m, s, h1, h2, hm, -⟩ := heapMade (unbootedAt_empty 0x123000) hfits
  have hapart := hall _ _ _ _ s₁ s vaddr hpm (unbootedAt_empty 0x123000) rfl (hn.symm ▸ h1) h2
  have hclear := (hm.apart_iff.mp hapart).heap
  exact absurd hclear (by decide +kernel)

end

end Shigure.Paging
