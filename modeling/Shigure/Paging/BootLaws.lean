import Shigure.Paging.Boot
import Shigure.Paging.Isolation

/-!
# The identity mapping

Everything `vm_initialize` places is known: the bitmaps, the kernel's directory
in the page after them, the table of the heap three pages on, and then one page
table after the other. The first loop makes a table in every 1024th round, and
each table moves its bound by one page, so that it ends after as many rounds as
there are pages up to the last table and one more.
-/

namespace Shigure.Paging

open Pm (FrameState frameSize pmalloc pfree freeFrames bitmapAddr maxOrder)
open Vm (pageSize)
open Vm.KHeap (kheapStart kheapInitialSize)

-- ---------------------------------------------------------------------------
-- Where things are
-- ---------------------------------------------------------------------------

def tablesFor (pages : Nat) : Nat := (pages + 1023) / 1024

/-- The page of `kernel_pd`: the first one after the bitmaps. -/
def kernelPdPage (placement nframes : Nat) : Nat :=
  (bitmapAddr placement nframes (maxOrder + 1) + 4095) / 4096

/-- The page of the first table that the loops make, behind `kernel_pd` and the table
of the heap. -/
def firstTablePage (placement nframes : Nat) : Nat := kernelPdPage placement nframes + 4

def kernelPages (first : Nat) : Nat := first + (first + 1023) / 1023 + 1

def identityPages (placement nframes initrdEnd : Nat) : Nat :=
  max (kernelPages (firstTablePage placement nframes)) ((initrdEnd + 0x1FFF) / 0x1000)

theorem kernelPages_bound (first k : Nat) (hk : k < kernelPages first) :
    k < first + tablesFor k + 1 := by
  simp only [kernelPages, tablesFor] at *
  omega

theorem kernelPages_stop (first : Nat) :
    first + tablesFor (kernelPages first) + 1 ≤ kernelPages first := by
  simp only [kernelPages, tablesFor]
  omega

-- ---------------------------------------------------------------------------
-- What the loops keep
-- ---------------------------------------------------------------------------

/-- `kernel_pd->tables` when the loops have made `c` tables: the one of the heap is
made before. -/
def kernelTable (first c i : Nat) : Nat :=
  if i < c then 4096 * (first + i) else if i = 768 then 4096 * (first - 1) else 0

def kernelEntry (first c i : Nat) : BitVec 32 :=
  if kernelTable first c i = 0 then pageRw
  else BitVec.ofNat 32 (kernelTable first c i) ||| pagePresent ||| pageRw

structure Places (first c : Nat) (early : List Span) (s : VmState) : Prop where
  kheap : s.kheap = none
  kernelPd : s.kernelPd = 4096 * (first - 4)
  tables : ∀ i, (s.pageDirectories s.kernelPd).tables i = kernelTable first c i
  entries : ∀ i, (s.pageDirectories s.kernelPd).entries i = kernelEntry first c i
  paddrPde : (s.pageDirectories s.kernelPd).paddrPde = BitVec.ofNat 32 s.kernelPd
  others : ∀ pd ≠ s.kernelPd, ∀ i, (s.pageDirectories pd).tables i = 0
  placed : s.placed = early ++ (List.range c).map fun i => ⟨4096 * (first + i), 4096⟩
  made : s.made = ((List.range c).map fun i => 4096 * (first + i)).reverse ++ [4096 * (first - 1)]
  held : s.held = []
  directories : s.directories = [s.kernelPd]

/-- `p` pages are mapped to the frames of the same numbers, and `k` pages of the heap
to the frames behind. -/
structure Mapping (first n c p k : Nat) (early : List Span) (s : VmState) : Prop
    extends Places first c early s where
  layout : s.frames.Layout
  nframes : s.frames.nframes = n
  free : freeFrames s.frames = {f | p + k ≤ f ∧ f < n}
  page : ∀ i < c, ∀ j, s.pageTables (4096 * (first + i)) j =
    if j < 1024 ∧ 1024 * i + j < p then frameEntry (1024 * i + j) false false else pageRw
  heapPage : ∀ j, s.pageTables (4096 * (first - 1)) j =
    if j < k then frameEntry (p + j) false false else pageRw

section
variable {first n c p k i size : Nat} {early : List Span} {s s' : VmState}

/-- Before there is a heap, `ikmalloc` moves `placement_address`. -/
theorem ikmalloc_aligned (hk : s.kheap = none) {t : Nat} (hp : s.placementAddress ≤ 4096 * t)
    (ht : 4096 * t < s.placementAddress + 4096) (hw : 4096 * t + size < wordSize) :
    ikmalloc size true s = some (4096 * t, BitVec.ofNat 32 (4096 * t),
      { s with placementAddress := 4096 * t + size, placed := s.placed ++ [⟨4096 * t, size⟩] }) := by
  have hal : align s.placementAddress frameSize = 4096 * t := by
    simp only [wordSize] at hw
    rw [show frameSize = 2 ^ 12 from rfl, align_eq (by decide) (by simp only [wordSize]; omega)]
    omega
  rw [ikmalloc, hk]
  simp only [hal, ↓reduceIte]
  rw [add32_eq hw]

theorem kernelTable_succ (i : Nat) : kernelTable first (c + 1) i =
    if i = c then 4096 * (first + c) else kernelTable first c i := by
  simp only [kernelTable]
  grind

theorem kernelEntry_succ (hf : 4 ≤ first) (i : Nat) : kernelEntry first (c + 1) i =
    if i = c then BitVec.ofNat 32 (4096 * (first + c)) ||| pagePresent ||| pageRw
    else kernelEntry first c i := by
  rw [kernelEntry, kernelTable_succ]
  split
  · rw [if_neg (by omega)]
  · rw [kernelEntry]

theorem Mapping.newTable (h : Mapping first n c p k early s) (hc : c < 768)
    (hp : p ≤ 1024 * c) (hf : 4 ≤ first) (hw : 4096 * (first + c + 2) < wordSize)
    (hplace : s.placementAddress = 4096 * (first + c)) {vaddr : Nat} (hv : pdIndex vaddr = c) :
    ∃ s', getPage vaddr s.kernelPd true s = some (⟨4096 * (first + c), ptIndex vaddr⟩, s') ∧
      Mapping first n (c + 1) p k early s' ∧ s'.placementAddress = 4096 * (first + (c + 1)) := by
  have hnone : (s.pageDirectories s.kernelPd).tables (pdIndex vaddr) = 0 := by
    rw [h.tables, hv, kernelTable, if_neg (Nat.lt_irrefl c), if_neg (by omega)]
  have hi : ikmalloc pageTableSize true s = _ := ikmalloc_aligned h.kheap (t := first + c) (by omega)
    (by omega) (by simp only [pageTableSize]; omega)
  refine ⟨_, getPage_new hnone hi (by omega), ?_⟩
  have hold : ∀ i < c, 4096 * (first + i) ≠ 4096 * (first + c) := fun i hi => by omega
  have hheap : 4096 * (first - 1) ≠ 4096 * (first + c) := by omega
  refine ⟨⟨⟨h.kheap, h.kernelPd, fun i => ?_, fun i => ?_, ?_, fun pd hpd i => ?_, ?_, ?_, h.held,
      h.directories⟩, h.layout, h.nframes, h.free, fun i hi j => ?_, fun j => ?_⟩, ?_⟩ <;>
    simp only [VmState.setPde, VmState.setDirectory, VmState.setTable, ↓reduceIte, pageTableSize]
  · rw [kernelTable_succ, hv, h.tables]
  · rw [kernelEntry_succ hf, hv, h.entries]
  · exact h.paddrPde
  · rw [if_neg (show ¬ pd = s.kernelPd from hpd)]
    exact h.others pd hpd i
  · rw [h.placed, List.range_succ, List.map_append, List.append_assoc]
    rfl
  · rw [h.made, List.range_succ, List.map_append, List.reverse_append]
    rfl
  · rcases Nat.lt_succ_iff_lt_or_eq.mp hi with hi | rfl
    · rw [if_neg (hold i hi), h.page i hi j]
    · rw [if_pos rfl, if_neg (by omega)]
  · rw [if_neg hheap, h.heapPage j]
  · omega

theorem Mapping.least (h : Mapping first n c p k early s) (hn : p + k < n) :
    IsLeast (freeFrames s.frames) (p + k) := by
  rw [h.free]
  exact ⟨⟨le_refl _, hn⟩, fun f hf => hf.1⟩

theorem free_next {f : Nat} : ({g | f ≤ g ∧ g < n} : Set Nat) \ {f} = {g | f + 1 ≤ g ∧ g < n} := by
  ext g
  simp only [Set.mem_sdiff, Set.mem_ofPred_eq, Set.mem_singleton_iff]
  omega

theorem Places.setEntry (h : Places first c early s) (frames : FrameState) (q : Slot)
    (pte : BitVec 32) : Places first c early ({ s with frames := frames }.setEntry q pte) :=
  ⟨h.kheap, h.kernelPd, h.tables, h.entries, h.paddrPde, h.others, h.placed, h.made, h.held,
    h.directories⟩

theorem Mapping.givePage (h : Mapping first n c p 0 early s) (hc : p < 1024 * c) (hn : p < n)
    (hf : 4 ≤ first) :
    ∃ s', allocFrame ⟨4096 * (first + p / 1024), p % 1024⟩ false false s = some s' ∧
      Mapping first n c (p + 1) 0 early s' ∧ s'.placementAddress = s.placementAddress := by
  have h0 : pteToPfn (s.entry ⟨4096 * (first + p / 1024), p % 1024⟩) = 0 := by
    rw [VmState.entry, h.page (p / 1024) (by omega) (p % 1024), if_neg (by omega)]
    exact pteToPfn_rw
  obtain ⟨frames, hl, hnf, hfree, ha⟩ := allocFrame_new h.layout h0 (h.least hn) false false
  refine ⟨_, ha, ⟨h.toPlaces.setEntry _ _ _, hl, hnf.trans h.nframes, ?_, fun i hi j => ?_,
    fun j => ?_⟩, rfl⟩
  · refine hfree.trans ?_
    rw [h.free]
    exact free_next
  · simp only [VmState.setEntry]
    by_cases he : j < 1024 ∧ 1024 * i + j = p
    · rw [if_pos ⟨by omega, by omega⟩, if_pos (by omega), he.2]
      rfl
    · rw [if_neg (by omega), h.page i hi j]
      exact if_congr (by omega) rfl rfl
  · simp only [VmState.setEntry]
    rw [if_neg (by omega), h.heapPage j, if_neg (Nat.not_lt_zero j), if_neg (Nat.not_lt_zero j)]

theorem Mapping.giveHeapPage (h : Mapping first n c p k early s) (hn : p + k < n) (hf : 4 ≤ first) :
    ∃ s', allocFrame ⟨4096 * (first - 1), k⟩ false false s = some s' ∧
      Mapping first n c p (k + 1) early s' ∧ s'.placementAddress = s.placementAddress := by
  have h0 : pteToPfn (s.entry ⟨4096 * (first - 1), k⟩) = 0 := by
    rw [VmState.entry, h.heapPage, if_neg (Nat.lt_irrefl k)]
    exact pteToPfn_rw
  obtain ⟨frames, hl, hnf, hfree, ha⟩ := allocFrame_new h.layout h0 (h.least hn) false false
  refine ⟨_, ha, ⟨h.toPlaces.setEntry _ _ _, hl, hnf.trans h.nframes, ?_, fun i hi j => ?_,
    fun j => ?_⟩, rfl⟩
  · refine hfree.trans ?_
    rw [h.free]
    exact free_next
  · simp only [VmState.setEntry]
    rw [if_neg (by omega), h.page i hi j]
  · simp only [VmState.setEntry, true_and]
    by_cases hj : j = k
    · rw [if_pos hj, if_pos (by omega), hj]
    · rw [if_neg hj, h.heapPage j]
      exact if_congr (by omega) rfl rfl

theorem pdIndex_page (p : Nat) : pdIndex (4096 * p) = p / 1024 := by
  rw [pdIndex, Nat.shiftRight_eq_div_pow]
  omega

theorem ptIndex_page (p : Nat) : ptIndex (4096 * p) = p % 1024 := by
  rw [ptIndex_eq, frameSize]
  omega

/-- One round of the loops: a table is made for every 1024th page. -/
theorem Mapping.mapPage (h : Mapping first n (tablesFor p) p 0 early s)
    (hplace : s.placementAddress = 4096 * (first + tablesFor p)) (hp : p < 768 * 1024) (hn : p < n)
    (hf : 4 ≤ first) (hw : 4096 * (first + 770) < wordSize) :
    ∃ s', mapKernelPage (4096 * p) s = some s' ∧
      Mapping first n (tablesFor (p + 1)) (p + 1) 0 early s' ∧
      s'.placementAddress = 4096 * (first + tablesFor (p + 1)) := by
  have hv := pdIndex_page p
  have ht := ptIndex_page p
  by_cases h0 : p % 1024 = 0
  · have hc : tablesFor p = p / 1024 := by simp only [tablesFor]; omega
    have hc' : tablesFor (p + 1) = p / 1024 + 1 := by simp only [tablesFor]; omega
    rw [hc] at h hplace
    obtain ⟨s₁, hg, h1, hp1⟩ := h.newTable (by omega) (by omega) hf (by omega) hplace hv
    obtain ⟨s₂, ha, h2, hp2⟩ := h1.givePage (by omega) hn hf
    refine ⟨s₂, ?_, hc' ▸ h2, by rw [hp2, hp1, hc']⟩
    simp only [mapKernelPage, hg, Option.bind_eq_bind, Option.bind_some, ht]
    exact ha
  · have hc : tablesFor (p + 1) = tablesFor p := by simp only [tablesFor]; omega
    have hlt : p / 1024 < tablesFor p := by simp only [tablesFor]; omega
    have hold : (s.pageDirectories s.kernelPd).tables (pdIndex (4096 * p)) =
        4096 * (first + p / 1024) := by
      rw [h.tables, hv, kernelTable, if_pos hlt]
    obtain ⟨s₂, ha, h2, hp2⟩ := h.givePage (by omega) hn hf
    refine ⟨s₂, ?_, hc ▸ h2, by rw [hp2, hplace, hc]⟩
    rw [mapKernelPage, getPage_old (by rw [hold]; omega), hold, ht]
    exact ha

def AtPage (first n : Nat) (early : List Span) (p : Nat) (s : VmState) : Prop :=
  Mapping first n (tablesFor p) p 0 early s ∧ s.placementAddress = 4096 * (first + tablesFor p)

theorem AtPage.rounds {limit : VmState → Nat} {a b : Nat} (hab : a ≤ b) (hb : b ≤ 768 * 1024)
    (hn : b ≤ n) (hf : 4 ≤ first) (hfirst : first ≤ b)
    (hlimit : ∀ p s, a ≤ p → p < b → AtPage first n early p s → 4096 * p < limit s)
    (hstop : ∀ s, AtPage first n early b s → limit s ≤ 4096 * b) :
    Rounds pageSize limit mapKernelPage (fun k => AtPage first n early (a + k)) (4096 * a) (b - a) := by
  have hw : 4096 * (first + 770) < wordSize := by
    simp only [wordSize]
    omega
  have haddr : ∀ k, 4096 * a + k * pageSize = 4096 * (a + k) := fun k => by
    simp only [pageSize]
    omega
  have hend : a + (b - a) = b := Nat.add_sub_cancel' hab
  refine ⟨fun k s hk h => ?_, fun s h => ?_, ?_⟩
  · rw [haddr, ← Nat.add_assoc]
    exact ⟨hlimit _ s (by omega) (by omega) h, h.1.mapPage h.2 (by omega) (by omega) hf hw⟩
  · rw [haddr, hend]
    exact hstop s (hend ▸ h)
  · rw [haddr, hend, wordSize]
    omega

theorem AtPage.mapKernel (h : AtPage first n early 0 s) (hpages : kernelPages first ≤ 768 * 1024)
    (hn : kernelPages first ≤ n) (hf : 4 ≤ first) :
    ∃ s', mapKernel s = some (4096 * kernelPages first, s') ∧
      AtPage first n early (kernelPages first) s' := by
  have hfirst : first ≤ kernelPages first := by simp only [kernelPages]; omega
  have hword : 4096 * (768 * 1024 + 770) < wordSize := by decide
  have hrounds : Rounds pageSize (fun s => add32 s.placementAddress pageSize) mapKernelPage
      (fun k => AtPage first n early (0 + k)) (4096 * 0) (kernelPages first - 0) := by
    refine AtPage.rounds (Nat.zero_le _) hpages hn hf hfirst (fun p s _ hp h => ?_) fun s h => ?_
    · have := kernelPages_bound first p hp
      have htables : tablesFor p ≤ 768 := by simp only [tablesFor]; omega
      rw [h.2, add32_eq (by simp only [pageSize]; omega), pageSize]
      omega
    · have := kernelPages_stop first
      have htables : tablesFor (kernelPages first) ≤ 768 := by simp only [tablesFor]; omega
      rw [h.2, add32_eq (by simp only [pageSize]; omega), pageSize]
      omega
  obtain ⟨s', hrun, h'⟩ := hrounds.run h (show _ < loopFuel by simp only [loopFuel]; omega)
  refine ⟨s', ?_, by simpa using h'⟩
  rw [Nat.sub_zero, Nat.mul_zero, Nat.zero_add] at hrun
  rw [Paging.mapKernel, hrun, pageSize, Nat.mul_comm]

theorem AtPage.mapInitrd {a initrdEnd : Nat} (h : AtPage first n early a s)
    (hb : max a ((initrdEnd + 0x1FFF) / 0x1000) ≤ 768 * 1024)
    (hn : max a ((initrdEnd + 0x1FFF) / 0x1000) ≤ n) (hf : 4 ≤ first) (hfirst : first ≤ a) :
    ∃ s', mapInitrd initrdEnd (4096 * a) s =
        some (4096 * max a ((initrdEnd + 0x1FFF) / 0x1000), s') ∧
      AtPage first n early (max a ((initrdEnd + 0x1FFF) / 0x1000)) s' := by
  have hword : 4096 * (768 * 1024 + 770) < wordSize := by decide
  generalize hend : max a ((initrdEnd + 0x1FFF) / 0x1000) = b at *
  have hadd : add32 initrdEnd pageSize = initrdEnd + 4096 :=
    add32_eq (by simp only [pageSize]; omega)
  have hrounds : Rounds pageSize (fun _ => add32 initrdEnd pageSize) mapKernelPage
      (fun k => AtPage first n early (a + k)) (4096 * a) (b - a) := by
    refine AtPage.rounds (by omega) hb hn hf (by omega) (fun p s hap hp _ => ?_) fun s _ => ?_
    · rw [hadd]
      omega
    · rw [hadd]
      omega
  obtain ⟨s', hrun, h'⟩ := hrounds.run h (show _ < loopFuel by simp only [loopFuel]; omega)
  refine ⟨s', ?_, ?_⟩
  · rw [Paging.mapInitrd, hrun, pageSize, show 4096 * a + (b - a) * 0x1000 = 4096 * b by omega]
  · rwa [Nat.add_sub_cancel' (by omega)] at h'

-- ---------------------------------------------------------------------------
-- Before the loops
-- ---------------------------------------------------------------------------

variable {placement j m : Nat}

def bitmapSpan (placement n i : Nat) : Span := ⟨bitmapAddr placement n i, (n / 2 ^ i + 7) / 8⟩

theorem bitmapAddr_mono (h : i ≤ j) : bitmapAddr placement n i ≤ bitmapAddr placement n j := by
  induction h with
  | refl => exact le_refl _
  | step _ ih => exact ih.trans (Nat.le_add_right _ _)

theorem placeBitmap_succ (hk : s.kheap = none)
    (hp : s.placementAddress = bitmapAddr placement n (i + 1))
    (hw : bitmapAddr placement n (i + 2) < wordSize) :
    placeBitmap n (i + 1) s = some { s with
      placementAddress := bitmapAddr placement n (i + 2)
      placed := s.placed ++ [bitmapSpan placement n (i + 1)] } := by
  rw [placeBitmap, ikmalloc, hk]
  have hsize : add32 (bitmapAddr placement n (i + 1)) ((n / 2 ^ (i + 1) + 7) / 8) =
      bitmapAddr placement n (i + 2) := add32_eq hw
  simp only [Nat.add_eq_zero_iff, Nat.one_ne_zero, and_false, beq_iff_eq, ↓reduceIte,
    hp, hsize, Option.map_some, bitmapSpan]

theorem placeBitmaps_succ (hk : s.kheap = none)
    (hp : s.placementAddress = bitmapAddr placement n (i + 1))
    (hw : bitmapAddr placement n (i + 1 + m) < wordSize) :
    placeBitmaps n (List.range' (i + 1) m) s = some { s with
      placementAddress := bitmapAddr placement n (i + 1 + m)
      placed := s.placed ++ (List.range' (i + 1) m).map (bitmapSpan placement n) } := by
  induction m generalizing i s with
  | zero =>
    rw [List.range'_zero, placeBitmaps, List.map_nil, List.append_nil, Nat.add_zero, ← hp]
  | succ m ih =>
    have he : i + 1 + (m + 1) = i + 1 + 1 + m := by omega
    rw [he] at hw ⊢
    rw [List.range'_succ, placeBitmaps, placeBitmap_succ hk hp
      ((bitmapAddr_mono (by omega)).trans_lt hw), Option.bind_some, ih (by exact hk) rfl hw]
    simp only [List.map_cons, List.append_assoc, List.singleton_append]

/-- The bitmaps are where the frame allocator looks for them. -/
theorem placeBitmaps_orders (hk : s.kheap = none)
    (hw : bitmapAddr s.placementAddress n (maxOrder + 1) < wordSize) :
    placeBitmaps n Pm.orders s = some { s with
      placementAddress := bitmapAddr s.placementAddress n (maxOrder + 1)
      placed := s.placed ++ Pm.orders.map (bitmapSpan s.placementAddress n) } := by
  have h1 : bitmapAddr s.placementAddress n 1 < wordSize :=
    (bitmapAddr_mono (by decide)).trans_lt hw
  have hfirst : placeBitmap n 0 s = some { s with
      placementAddress := bitmapAddr s.placementAddress n 1
      placed := s.placed ++ [bitmapSpan s.placementAddress n 0] } := by
    rw [placeBitmap, ikmalloc, hk]
    have hsize : add32 (align s.placementAddress frameSize) ((n / 2 ^ 0 + 7) / 8) =
        bitmapAddr s.placementAddress n 1 := add32_eq h1
    simp only [beq_self_eq_true, ↓reduceIte, hsize, Option.map_some, bitmapSpan, bitmapAddr]
  rw [Pm.orders_eq, List.range'_succ, placeBitmaps, hfirst, Option.bind_some,
    placeBitmaps_succ (by exact hk) rfl (by rw [Nat.zero_add, Nat.add_comm]; exact hw)]
  simp only [List.map_cons, List.append_assoc, List.singleton_append, Nat.zero_add,
    Nat.add_comm 1 maxOrder]

structure Unbooted (s : VmState) : Prop where
  kheap : s.kheap = none
  placed : s.placed = []
  held : s.held = []
  made : s.made = []
  directories : s.directories = []
  tables : ∀ pd i, (s.pageDirectories pd).tables i = 0

def earlySpans (placement n : Nat) : List Span :=
  Pm.orders.map (bitmapSpan placement n) ++
    [⟨4096 * kernelPdPage placement n, pageDirectorySize⟩,
      ⟨4096 * (kernelPdPage placement n + 3), pageTableSize⟩]

theorem frameInitialize_free (mem : Mem) (placement : Nat) (hn : n < 2 ^ 31) :
    freeFrames (Pm.frameInitialize mem placement n) = {f | 0 + 0 ≤ f ∧ f < n} := by
  have hlayout : (Pm.boot ⟨mem, placement, n, hn⟩).fs.Layout := Pm.boot_layout
  ext f
  constructor
  · exact fun hf => ⟨Nat.zero_le f, hf.1⟩
  · exact fun hf => ⟨hf.2, Pm.boot_bit (m := ⟨mem, placement, n, hn⟩) (Nat.zero_le _)
      (Pm.Layout.lt_cap_zero hlayout hf.2)⟩

theorem makeKernelPd_placed (hk : s.kheap = none) {t : Nat} (hp : s.placementAddress ≤ 4096 * t)
    (ht : 4096 * t < s.placementAddress + 4096) (hw : 4096 * t + pageDirectorySize < wordSize) :
    makeKernelPd s = some { s with
      placementAddress := 4096 * t + pageDirectorySize
      placed := s.placed ++ [⟨4096 * t, pageDirectorySize⟩]
      pageDirectories := fun pd => if pd = 4096 * t
        then ⟨fun _ => pageRw, fun _ => 0, BitVec.ofNat 32 (4096 * t)⟩ else s.pageDirectories pd
      kernelPd := 4096 * t
      directories := 4096 * t :: s.directories } := by
  rw [makeKernelPd, ikmalloc_aligned hk hp ht hw]
  rfl

theorem pdIndex_kheap (hk : k < 256) : pdIndex (kheapStart + k * pageSize) = 768 := by
  simp only [pdIndex, Nat.shiftRight_eq_div_pow, kheapStart, pageSize]
  omega

/-- The first round makes the table of the heap, the others find it. -/
theorem mapKheapTables_new {s₁ : VmState}
    (hnew : kernelPage kheapStart s = some s₁)
    (hold : (s₁.pageDirectories s₁.kernelPd).tables 768 ≠ 0) : mapKheapTables s = some s₁ := by
  have hrounds : Rounds pageSize (fun _ => kheapStart + kheapInitialSize) kernelPage
      (fun k x => x = if k = 0 then s else s₁) kheapStart 256 := by
    refine ⟨fun k x hk hx => ⟨?_, s₁, ?_, by simp⟩, fun _ _ => by decide, by decide⟩
    · simp only [pageSize, kheapInitialSize]
      omega
    · cases k with
      | zero => simpa [hx] using hnew
      | succ k =>
        rw [if_neg (Nat.succ_ne_zero k)] at hx
        rw [hx, kernelPage, getPage_old (by rw [pdIndex_kheap hk]; exact hold)]
        rfl
  obtain ⟨s', hrun, hs'⟩ := hrounds.run (s := s) rfl (show _ < loopFuel by decide)
  rw [mapKheapTables, hrun, Option.map_some, hs']
  rfl

theorem frameInitialize_placed (hk : s.kheap = none)
    (hw : bitmapAddr s.placementAddress n (maxOrder + 1) < wordSize) :
    frameInitialize n s = some { s with
      placementAddress := bitmapAddr s.placementAddress n (maxOrder + 1)
      placed := s.placed ++ Pm.orders.map (bitmapSpan s.placementAddress n)
      frames := Pm.frameInitialize s.phys s.placementAddress n } := by
  rw [frameInitialize, placeBitmaps_orders hk hw]
  rfl

structure Bare (t n : Nat) (early : List Span) (s : VmState) : Prop where
  kheap : s.kheap = none
  placement : s.placementAddress = 4096 * t + pageDirectorySize
  layout : s.frames.Layout
  nframes : s.frames.nframes = n
  free : freeFrames s.frames = {f | 0 + 0 ≤ f ∧ f < n}
  kernelPd : s.kernelPd = 4096 * t
  directory : s.pageDirectories s.kernelPd = ⟨fun _ => pageRw, fun _ => 0, BitVec.ofNat 32 (4096 * t)⟩
  others : ∀ pd ≠ s.kernelPd, ∀ i, (s.pageDirectories pd).tables i = 0
  placed : s.placed = early
  made : s.made = []
  held : s.held = []
  directories : s.directories = [s.kernelPd]

theorem Unbooted.bare (hu : Unbooted s) (hn : n < 2 ^ 31) {t : Nat}
    (ht : t = kernelPdPage s.placementAddress n) (hlt : t + 4 ≤ 768 * 1024) :
    ∃ s₁ s₂, frameInitialize n s = some s₁ ∧ makeKernelPd s₁ = some s₂ ∧
      Bare t n (Pm.orders.map (bitmapSpan s.placementAddress n) ++ [⟨4096 * t, pageDirectorySize⟩])
        s₂ := by
  simp only [kernelPdPage] at ht
  refine ⟨_, _, frameInitialize_placed hu.kheap (by simp only [wordSize]; omega),
    makeKernelPd_placed (t := t) (by exact hu.kheap) (by show bitmapAddr _ _ _ ≤ _; omega)
      (by show _ < bitmapAddr _ _ _ + 4096; omega)
      (by simp only [wordSize, pageDirectorySize]; omega), ?_⟩
  refine ⟨hu.kheap, rfl, ⟨fun _ => rfl, fun _ => rfl⟩, rfl, frameInitialize_free _ _ hn, rfl,
    if_pos rfl, fun pd hpd i => ?_, ?_, hu.made, hu.held, ?_⟩
  · simp only [if_neg hpd]
    exact hu.tables pd i
  · simp only [hu.placed, List.nil_append]
  · simp only [hu.directories]

theorem Bare.mapKheapTables {t : Nat} (h : Bare t n early s) (hlt : t + 4 ≤ 768 * 1024) :
    ∃ s', mapKheapTables s = some s' ∧
      AtPage (t + 4) n (early ++ [⟨4096 * (t + 3), pageTableSize⟩]) 0 s' := by
  have hp := h.placement
  simp only [pageDirectorySize] at hp
  have hi : ikmalloc pageTableSize true s = _ := ikmalloc_aligned (t := t + 3) h.kheap
    (by omega) (by omega) (by simp only [wordSize, pageTableSize]; omega)
  have hv : pdIndex kheapStart = 768 := by decide
  have h0 : (s.pageDirectories s.kernelPd).tables (pdIndex kheapStart) = 0 := by rw [h.directory]
  have hg := getPage_new h0 hi (by omega)
  rw [hv] at hg
  have htf : tablesFor 0 = 0 := by decide
  have hzero : ∀ i, kernelTable (t + 4) (tablesFor 0) i = if i = 768 then 4096 * (t + 3) else 0 :=
    fun i => if_neg (Nat.not_lt_zero i)
  refine ⟨_, mapKheapTables_new (congrArg (Option.map Prod.snd) hg) ?_, ?_⟩
  · simp only [VmState.setPde, VmState.setDirectory, VmState.setTable, ↓reduceIte]
    omega
  refine ⟨⟨⟨h.kheap, ?_, fun i => ?_, fun i => ?_, ?_, fun pd hpd i => ?_, ?_, ?_, h.held,
      h.directories⟩, h.layout, h.nframes, h.free, fun i hi => absurd hi (Nat.not_lt_zero i), fun j => ?_⟩, ?_⟩ <;>
    simp only [VmState.setPde, VmState.setDirectory, VmState.setTable, ↓reduceIte, pageTableSize,
      h.directory]
  · exact h.kernelPd
  · exact (hzero i).symm
  · rw [kernelEntry, hzero]
    by_cases hi : i = 768
    · rw [if_pos hi, if_pos hi, if_neg (by omega)]
    · rw [if_neg hi, if_neg hi, if_pos rfl]
  · rw [h.kernelPd]
  · rw [if_neg (show ¬ pd = s.kernelPd from hpd)]
    exact h.others pd hpd i
  · rw [h.placed, htf, List.range_zero, List.map_nil, List.append_nil]
  · rw [h.made, htf, List.range_zero, List.map_nil, List.reverse_nil, List.nil_append,
      show t + 4 - 1 = t + 3 by omega]
  · rw [if_pos (by omega), if_neg (Nat.not_lt_zero j)]
  · rw [htf]
    omega

/-- The mapping that `vm_initialize` makes. -/
theorem mapIdentity_spec {initrdEnd : Nat} (hu : Unbooted s) (hn : n < 2 ^ 31)
    (hlow : identityPages s.placementAddress n initrdEnd ≤ 768 * 1024)
    (hframes : identityPages s.placementAddress n initrdEnd ≤ n) :
    ∃ s', mapIdentity n initrdEnd s =
        some (4096 * identityPages s.placementAddress n initrdEnd, s') ∧
      AtPage (firstTablePage s.placementAddress n) n (earlySpans s.placementAddress n)
        (identityPages s.placementAddress n initrdEnd) s' := by
  have hfirst : firstTablePage s.placementAddress n ≤ 768 * 1024 := by
    simp only [identityPages, kernelPages] at hlow
    omega
  have hpages : kernelPages (firstTablePage s.placementAddress n) ≤
    identityPages s.placementAddress n initrdEnd := Nat.le_max_left _ _
  obtain ⟨s₁, s₂, h1, h2, hbare⟩ := hu.bare hn rfl hfirst
  obtain ⟨s₃, h3, hzero⟩ := hbare.mapKheapTables hfirst
  rw [List.append_assoc] at hzero
  obtain ⟨s₄, h4, hkernel⟩ := hzero.mapKernel (hpages.trans hlow) (hpages.trans hframes) (by omega)
  obtain ⟨s₅, h5, hend⟩ := hkernel.mapInitrd hlow hframes (by omega) (by
    simp only [kernelPages]
    omega)
  refine ⟨s₅, ?_, hend⟩
  simp only [mapIdentity, h1, h2, h3, h4, Option.bind_eq_bind, Option.bind_some]
  exact h5

-- ---------------------------------------------------------------------------
-- Memory
-- ---------------------------------------------------------------------------

theorem mapKernelPage_phys {vaddr : Nat} (h : mapKernelPage vaddr s = some s') : s'.phys = s.phys := by
  obtain ⟨⟨q, s₁⟩, hg, ha⟩ := Option.bind_eq_some_iff.mp h
  have hphys := getPage_phys hg
  obtain ⟨_, _, rfl⟩ := allocFrame_same ha
  exact hphys

theorem placeBitmaps_phys {is : List Nat} (h : placeBitmaps n is s = some s') : s'.phys = s.phys := by
  induction is generalizing s with
  | nil =>
    cases h
    rfl
  | cons i is ih =>
    obtain ⟨s₁, h1, h⟩ := Option.bind_eq_some_iff.mp h
    obtain ⟨⟨_, _, s₂⟩, hi, rfl⟩ := Option.map_eq_some_iff.mp h1
    have hphys := ih h
    obtain ⟨_, _, _, _, rfl⟩ := ikmalloc_same hi
    exact hphys

theorem mapIdentity_phys {initrdEnd vaddr : Nat} (h : mapIdentity n initrdEnd s = some (vaddr, s')) :
    s'.phys = s.phys := by
  obtain ⟨s₁, h1, h⟩ := Option.bind_eq_some_iff.mp h
  obtain ⟨s₂, h2, h⟩ := Option.bind_eq_some_iff.mp h
  obtain ⟨s₃, h3, h⟩ := Option.bind_eq_some_iff.mp h
  obtain ⟨⟨v, s₄⟩, h4, h⟩ := Option.bind_eq_some_iff.mp h
  have e1 : s₁.phys = s.phys := by
    obtain ⟨x, hx, h1⟩ := Option.bind_eq_some_iff.mp h1
    have hphys := placeBitmaps_phys hx
    cases h1
    exact hphys
  have e2 : s₂.phys = s₁.phys := by
    obtain ⟨⟨_, _, x⟩, hx, h2⟩ := Option.bind_eq_some_iff.mp h2
    obtain ⟨_, _, _, _, rfl⟩ := ikmalloc_same hx
    cases h2
    rfl
  have e3 : s₃.phys = s₂.phys := by
    obtain ⟨⟨_, x⟩, hx, rfl⟩ := Option.map_eq_some_iff.mp h3
    refine whileBelow_keeps (fun x => x.phys = s₂.phys) (fun v x x' hx hk => ?_) rfl hx
    obtain ⟨⟨_, _⟩, hg, rfl⟩ := Option.map_eq_some_iff.mp hk
    exact (getPage_phys hg).trans hx
  have e4 : s₄.phys = s₃.phys := whileBelow_keeps (fun x => x.phys = s₃.phys)
    (fun v x x' hx hk => (mapKernelPage_phys hk).trans hx) rfl h4
  have e5 : s'.phys = s₄.phys := whileBelow_keeps (fun x => x.phys = s₄.phys)
    (fun v x x' hx hk => (mapKernelPage_phys hk).trans hx) rfl h
  rw [e5, e4, e3, e2, e1]

-- ---------------------------------------------------------------------------
-- The mapping
-- ---------------------------------------------------------------------------

theorem tables_below (first : Nat) {p : Nat} (hp : kernelPages first ≤ p) :
    first + tablesFor p + 1 ≤ p := by
  simp only [kernelPages, tablesFor] at *
  omega

theorem Places.present (h : Places first c early s) (hi : kernelTable first c i ≠ 0) :
    anyOf ((s.pageDirectories s.kernelPd).entries i) pagePresent = true := by
  rw [h.entries, kernelEntry, if_neg hi, anyOf_or, anyOf_or,
    show anyOf pagePresent pagePresent = true by decide, Bool.or_true, Bool.true_or]

theorem Mapping.frameAt_page (h : Mapping first n c p k early s) (hf : 4 ≤ first) {q : Nat}
    (hq : q < p) (hc : p ≤ 1024 * c) (hlt : q < 2 ^ 20) :
    frameAt s s.kernelPd (q * pageSize) = some q := by
  have hv : pdIndex (q * pageSize) = q / 1024 := by
    rw [Nat.mul_comm]
    exact pdIndex_page q
  have ht : ptIndex (q * pageSize) = q % 1024 := by
    rw [Nat.mul_comm]
    exact ptIndex_page q
  have htable : kernelTable first c (q / 1024) = 4096 * (first + q / 1024) :=
    if_pos (by omega)
  have hmod : q % 1024 < 1024 := Nat.mod_lt _ (by decide)
  have hq' : 1024 * (q / 1024) + q % 1024 = q := Nat.div_add_mod q 1024
  have hentry : s.entry ⟨4096 * (first + q / 1024), q % 1024⟩ = frameEntry q false false := by
    rw [VmState.entry, h.page (q / 1024) (by omega) (q % 1024), hq', if_pos ⟨hmod, hq⟩]
  rw [frameAt_eq_some, hv, ht, h.tables, htable, hentry]
  exact ⟨h.present (by rw [htable]; omega), frameEntry_present q false false,
    pteToPfn_frameEntry hlt false false⟩

theorem earlySpans_below {x : Span} (hx : x ∈ earlySpans placement n) :
    x.base + x.size ≤ 4096 * firstTablePage placement n := by
  have hend : bitmapAddr placement n (maxOrder + 1) ≤ 4096 * kernelPdPage placement n := by
    simp only [kernelPdPage]
    omega
  simp only [firstTablePage]
  rcases List.mem_append.mp hx with hx | hx
  · obtain ⟨i, hi, rfl⟩ := List.mem_map.mp hx
    have hle : bitmapAddr placement n (i + 1) ≤ bitmapAddr placement n (maxOrder + 1) :=
      bitmapAddr_mono (List.mem_range.mp hi)
    have hnext : (bitmapSpan placement n i).base + (bitmapSpan placement n i).size =
      bitmapAddr placement n (i + 1) := rfl
    omega
  · simp only [List.mem_cons, List.not_mem_nil, or_false, pageDirectorySize, pageTableSize] at hx
    rcases hx with rfl | rfl <;> simp only <;> omega

/-- The loops of the identity mapping end. Every page below the address where they do
is mapped to the frame of its number, and all that was placed is below it, as the
initrd is. -/
theorem identity_map_complete {initrdEnd : Nat} (hu : Unbooted s) (hn : n < 2 ^ 31)
    (hlow : 4096 * identityPages s.placementAddress n initrdEnd ≤ kheapStart)
    (hframes : identityPages s.placementAddress n initrdEnd ≤ n) :
    ∃ vaddr s', mapIdentity n initrdEnd s = some (vaddr, s') ∧
      (∀ p < vaddr / pageSize, frameAt s' s'.kernelPd (p * pageSize) = some p) ∧
      (∀ x ∈ s'.placed, x.base + x.size ≤ vaddr) ∧ initrdEnd ≤ vaddr := by
  have hlow' : identityPages s.placementAddress n initrdEnd ≤ 768 * 1024 := by
    simp only [kheapStart] at hlow
    omega
  obtain ⟨s', hrun, hmap, -⟩ := mapIdentity_spec hu hn hlow' hframes
  have hpages : kernelPages (firstTablePage s.placementAddress n) ≤
    identityPages s.placementAddress n initrdEnd := Nat.le_max_left _ _
  have hinitrd : (initrdEnd + 0x1FFF) / 0x1000 ≤ identityPages s.placementAddress n initrdEnd :=
    Nat.le_max_right _ _
  have hbelow := tables_below _ hpages
  refine ⟨_, s', hrun, fun p hp => ?_, fun x hx => ?_, by omega⟩
  · have hp' : p < identityPages s.placementAddress n initrdEnd := by
      simp only [pageSize] at hp
      omega
    refine hmap.frameAt_page ?_ hp' ?_ (by omega)
    · simp only [firstTablePage]
      omega
    · simp only [tablesFor]
      omega
  · rw [hmap.placed] at hx
    rcases List.mem_append.mp hx with hx | hx
    · have := earlySpans_below hx
      omega
    · obtain ⟨i, hi, rfl⟩ := List.mem_map.mp hx
      have := List.mem_range.mp hi
      simp only
      omega

/-- A machine with 128 MiB. -/
def unbooted : VmState where
  placementAddress := 0x200000
  kheap := none
  frames := ⟨fun _ => 0, 0, fun _ => ⟨0, 0⟩, []⟩
  pageTables _ _ := 0
  pageDirectories _ := ⟨fun _ => 0, fun _ => 0, 0⟩
  kernelPd := 0
  currentPd := 0
  phys _ := 0
  placed := []
  held := []
  made := []
  directories := []

theorem unbooted_empty : Unbooted unbooted := ⟨rfl, rfl, rfl, rfl, rfl, fun _ _ => rfl⟩

theorem identity_map_complete_small : ∃ vaddr s', mapIdentity 0x8000 0x1F0000 unbooted = some (vaddr, s') ∧
    (∀ p < vaddr / pageSize, frameAt s' s'.kernelPd (p * pageSize) = some p) ∧
    (∀ x ∈ s'.placed, x.base + x.size ≤ vaddr) ∧ 0x1F0000 ≤ vaddr :=
  identity_map_complete unbooted_empty (by decide) (by decide +kernel) (by decide +kernel)

end

end Shigure.Paging
