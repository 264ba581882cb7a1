import Shigure.Paging.Booted
import Shigure.Vm.Bump

/-!
# Kernel memory that is not given back

The paging code asks for kernel memory and never returns any, so that what the
heap has left is the end of its area. A call that gets a block gets the front of
it.
-/

namespace Shigure.Paging

open Pm (freeFrames)
open Vm (headerSize pageSize)
open Vm.KHeap (NoWrap Bump room nextHeader kheapStart kheapEnd)

def HeapAt (s : VmState) (c : Nat) : Prop := ∃ kheap, s.kheap = some kheap ∧ Bump kheap s.held c

section
variable {s s' : VmState} {a c size src dst i : Nat} {pa : BitVec 32} {pageAlign : Bool}

theorem HeapAt.congr (h : HeapAt s c) (hk : s'.kheap = s.kheap) (hh : s'.held = s.held) :
    HeapAt s' c := by
  rw [HeapAt, hk, hh]
  exact h

theorem HeapAt.low (h : HeapAt s c) : kheapStart ≤ c := by
  obtain ⟨_, -, hb⟩ := h
  exact hb.low

theorem HeapAt.high (h : HeapAt s c) : c ≤ kheapEnd := by
  obtain ⟨_, -, hb⟩ := h
  exact hb.high

theorem HeapAt.block (h : HeapAt s c) (hw : NoWrap pageAlign size)
    (hroom : c + room pageAlign size ≤ kheapEnd) :
    ∃ s', ikmalloc size pageAlign s = some (nextHeader pageAlign c + headerSize,
        kernelPhys (nextHeader pageAlign c + headerSize) s, s') ∧
      HeapAt s' (nextHeader pageAlign c + headerSize + size) := by
  obtain ⟨kheap, hk, hb⟩ := h
  obtain ⟨kheap', hm, hb'⟩ := hb.alloc hw hroom
  have hne : nextHeader pageAlign c + headerSize ≠ 0 := by
    simp only [headerSize]
    omega
  refine ⟨_, ikmalloc_heap hk hm, kheap', rfl, ?_⟩
  simp only [if_neg hne, Nat.add_sub_cancel]
  exact hb'

theorem HeapAt.no_block (h : HeapAt s c) (hw : NoWrap pageAlign size)
    (hroom : kheapEnd < c + room pageAlign size) :
    ikmalloc size pageAlign s = some (0, kernelPhys 0 s, s) := by
  obtain ⟨kheap, hk, hb⟩ := h
  rw [ikmalloc_heap hk (hb.alloc_full hw hroom), if_pos rfl, ← hk]

/-- The heap has moved on by at most `n` bytes, and `current_pd` is the same. -/
def Spends (n c : Nat) (s s' : VmState) : Prop :=
  ∃ c', c ≤ c' ∧ c' ≤ c + n ∧ HeapAt s' c' ∧ s'.currentPd = s.currentPd

theorem HeapAt.ikmalloc (h : HeapAt s c) (hw : NoWrap pageAlign size)
    (hi : ikmalloc size pageAlign s = some (a, pa, s')) :
    ∃ c', c ≤ c' ∧ c' ≤ c + room pageAlign size ∧ HeapAt s' c' ∧ s'.currentPd = s.currentPd ∧
      (a = 0 ∧ kheapEnd < c + room pageAlign size ∧ c' = c ∨
        c + headerSize ≤ a ∧ c + room pageAlign size ≤ kheapEnd ∧ c' = a + size) := by
  have hcurrent : s'.currentPd = s.currentPd := by
    obtain ⟨_, _, _, _, rfl⟩ := ikmalloc_same hi
    rfl
  obtain ⟨hlo, hhi⟩ := Vm.KHeap.nextHeader_bounds hw h.high
  rcases Nat.lt_or_ge kheapEnd (c + room pageAlign size) with hfull | hroom
  · rw [h.no_block hw hfull] at hi
    cases hi
    exact ⟨c, le_rfl, by omega, h, hcurrent, .inl ⟨rfl, hfull, rfl⟩⟩
  · obtain ⟨s₁, h1, hat⟩ := h.block hw hroom
    rw [h1] at hi
    cases hi
    exact ⟨_, by omega, hhi, hat, hcurrent, .inr ⟨by omega, hroom, rfl⟩⟩

theorem HeapAt.allocFrame (h : HeapAt s c) {p : Slot} {kernel writable : Bool}
    (ha : allocFrame p kernel writable s = some s') : HeapAt s' c ∧ s'.currentPd = s.currentPd := by
  obtain ⟨_, _, rfl⟩ := allocFrame_same ha
  exact ⟨h, rfl⟩

theorem HeapAt.getPage (h : HeapAt s c) {vaddr pd : Nat} {p : Slot}
    (hg : getPage vaddr pd true s = some (p, s')) : Spends (room true pageTableSize) c s s' := by
  rcases getPage_cases hg with ⟨-, -, rfl⟩ | ⟨-, t, pa, s₁, hi, hs'⟩
  · exact ⟨c, le_rfl, by omega, h, rfl⟩
  · obtain ⟨c', hle, hle', hat, hcurrent, -⟩ := h.ikmalloc (by decide) hi
    refine ⟨c', hle, hle', ?_⟩
    rcases hs' with ⟨-, -, rfl⟩ | ⟨-, -, rfl⟩
    · exact ⟨hat, hcurrent⟩
    · exact ⟨hat, hcurrent⟩

theorem HeapAt.clonePageTable (h : HeapAt s c) {t : Nat}
    (hc : clonePageTable src s = some (t, pa, s')) : Spends (room true pageTableSize) c s s' := by
  obtain ⟨s₁, hi, he⟩ := clonePageTable_some hc
  obtain ⟨c', hle, hle', hat, hcurrent, -⟩ := h.ikmalloc (by decide) hi
  obtain ⟨_, _, _, rfl⟩ := cloneEntries_same he
  exact ⟨c', hle, hle', hat, hcurrent⟩

theorem HeapAt.clonePde (h : HeapAt s c) (hc : clonePde src dst i s = some s') :
    Spends (room true pageTableSize) c s s' := by
  rw [Paging.clonePde] at hc
  dsimp only at hc
  split at hc
  · cases hc
    exact ⟨c, le_rfl, by omega, h, rfl⟩
  · split at hc
    · cases hc
      exact ⟨c, le_rfl, by omega, h, rfl⟩
    · obtain ⟨⟨t, pa, s₁⟩, ht, hc⟩ := Option.bind_eq_some_iff.mp hc
      cases hc
      obtain ⟨c', hle, hle', hat, hcurrent⟩ := h.clonePageTable ht
      exact ⟨c', hle, hle', hat, hcurrent⟩

theorem HeapAt.clonePdes (h : HeapAt s c) {is : List Nat} (hc : clonePdes src dst is s = some s') :
    ∃ c', c ≤ c' ∧ HeapAt s' c' ∧ s'.currentPd = s.currentPd := by
  induction is generalizing s c with
  | nil =>
    cases hc
    exact ⟨c, le_rfl, h, rfl⟩
  | cons i is ih =>
    obtain ⟨s₁, h1, hc⟩ := Option.bind_eq_some_iff.mp hc
    obtain ⟨c₁, hle, -, hat, hcurrent⟩ := h.clonePde h1
    obtain ⟨c', hle', hat', hcurrent'⟩ := ih hat hc
    exact ⟨c', hle.trans hle', hat', hcurrent'.trans hcurrent⟩

theorem HeapAt.clonePageDirectory (h : HeapAt s c) {pd : Nat}
    (hc : clonePageDirectory src s = some (pd, s')) :
    ∃ c', c ≤ c' ∧ HeapAt s' c' ∧ s'.currentPd = s.currentPd := by
  obtain ⟨pa, s₁, hi, he⟩ := clonePageDirectory_some hc
  obtain ⟨c₁, hle, -, hat, hcurrent, -⟩ := h.ikmalloc (by decide) hi
  generalize List.range pdEntries = is at he
  have hat₁ : HeapAt { s₁.setDirectory pd ⟨fun _ => 0, fun _ => 0, pa⟩ with
    directories := pd :: s₁.directories } c₁ := hat
  obtain ⟨c', hle', hat', hcurrent'⟩ := hat₁.clonePdes he
  exact ⟨c', hle.trans hle', hat', hcurrent'.trans hcurrent⟩

theorem Boots.heapAt {n initrdEnd : Nat} {s₀ : VmState} (h : Boots n initrdEnd s₀ s) :
    HeapAt s 0xC0003004 := by
  obtain ⟨m, s₁, pd, s₂, hm, hc, rfl⟩ := h.cases
  obtain ⟨hfirst, hbelow, hlow, hinitrd⟩ := hm.fits.bounds
  have hfits := hm.fits.low
  have hboot : initrdEnd + pageSize + Vm.KHeap.heapSize + Vm.KHeap.nodeSize ≤ kheapStart := by
    simp only [Vm.KHeap.heapSize, Vm.KHeap.nodeSize, kheapStart] at *
    omega
  have hat : HeapAt s₁ kheapStart := by
    rw [hm.state]
    refine ⟨_, rfl, ?_⟩
    rw [show m.held = [] from hm.mapping.held]
    exact Vm.KHeap.Boot.init_bump ⟨initrdEnd + pageSize, kernelMem m, hboot⟩
  obtain ⟨s₃, hi, hat₃⟩ := hat.block (show NoWrap true pageDirectorySize by decide) (by decide)
  have hkernel : s₁.kernelPd < kheapStart := by
    obtain ⟨-, hobj, -⟩ := hm.mapping.objects hfirst (by omega)
    rw [hm.state]
    refine hobj _ (List.mem_append_right _ ?_)
    rw [hm.mapping.directories]
    exact List.mem_singleton_self _
  have hpd : nextHeader true kheapStart + headerSize = 0xC0001000 := by decide +kernel
  rw [hpd] at hi hat₃
  have hne : s₁.kernelPd ≠ 0xC0001000 := (hkernel.trans (by decide)).ne
  obtain ⟨ds, hclone⟩ := clone_links hi hne hne fun i _ => .inr rfl
  rw [hclone] at hc
  cases hc
  exact hat₃

-- ---------------------------------------------------------------------------
-- Clones that found no memory
-- ---------------------------------------------------------------------------

theorem HeapAt.unique {c' : Nat} (h : HeapAt s c) (h' : HeapAt s c') : c = c' := by
  obtain ⟨kheap, hk, hb⟩ := h
  obtain ⟨kheap', hk', hb'⟩ := h'
  obtain rfl : kheap = kheap' := Option.some.inj (hk.symm.trans hk')
  exact hb.unique hb'

/-- There are `b` bytes of the heap behind `c`, and `m` frames. -/
structure Supplied (s : VmState) (c b m : Nat) : Prop where
  heap : HeapAt s c
  bytes : c + b ≤ kheapEnd
  layout : s.frames.Layout
  frames : m ≤ (freeFrames s.frames).ncard

variable {b m : Nat} {is : List Nat}

theorem Supplied.congr (h : Supplied s c b m) (hk : s'.kheap = s.kheap) (hh : s'.held = s.held)
    (hf : s'.frames = s.frames) : Supplied s' c b m :=
  ⟨h.heap.congr hk hh, h.bytes, hf ▸ h.layout, hf ▸ h.frames⟩

theorem Supplied.less (h : Supplied s c b m) {b' m' : Nat} (hb : b' ≤ b) (hm : m' ≤ m) :
    Supplied s c b' m' :=
  ⟨h.heap, (Nat.add_le_add_left hb c).trans h.bytes, h.layout, hm.trans h.frames⟩

theorem Supplied.ikmalloc (h : Supplied s c (room pageAlign size + b) m) (hw : NoWrap pageAlign size) :
    ∃ a pa s', ikmalloc size pageAlign s = some (a, pa, s') ∧ Supplied s' (a + size) b m ∧ c < a := by
  have hbytes := h.bytes
  obtain ⟨hlo, hhi⟩ := Vm.KHeap.nextHeader_bounds hw h.heap.high
  obtain ⟨s', hi, hat⟩ := h.heap.block hw (by omega)
  obtain ⟨_, _, _, _, hs'⟩ := ikmalloc_same hi
  refine ⟨_, _, s', hi, ⟨hat, by omega, ?_, ?_⟩, by simp only [headerSize]; omega⟩
  · rw [hs']
    exact h.layout
  · rw [hs']
    exact h.frames

theorem allocFrame_spends (hl : s.frames.Layout) (hm : m + 1 ≤ (freeFrames s.frames).ncard)
    (p : Slot) (kernel writable : Bool) : ∃ s', allocFrame p kernel writable s = some s' ∧
      s'.frames.Layout ∧ m ≤ (freeFrames s'.frames).ncard := by
  by_cases h0 : pteToPfn (s.entry p) = 0
  · have hpos : (freeFrames s.frames).ncard ≠ 0 := by omega
    obtain ⟨f, hf⟩ := exists_least (Set.nonempty_of_ncard_ne_zero hpos)
    obtain ⟨frames, hl', -, hfree, ha⟩ := allocFrame_new hl h0 hf kernel writable
    refine ⟨_, ha, hl', ?_⟩
    show m ≤ (freeFrames frames).ncard
    rw [hfree, Set.ncard_sdiff_singleton_of_mem hf.1]
    exact Nat.le_sub_one_of_lt hm
  · exact ⟨s, if_pos h0, hl, by omega⟩

theorem Supplied.allocFrame (h : Supplied s c b (m + 1)) (p : Slot) (kernel writable : Bool) :
    ∃ s', allocFrame p kernel writable s = some s' ∧ Supplied s' c b m := by
  obtain ⟨s', ha, hl, hm⟩ := allocFrame_spends h.layout h.frames p kernel writable
  refine ⟨s', ha, ?_⟩
  obtain ⟨_, _, rfl⟩ := allocFrame_same ha
  exact ⟨h.heap.congr rfl rfl, h.bytes, hl, hm⟩

theorem Supplied.cloneEntry (h : Supplied s c b (m + 1)) :
    ∃ s', cloneEntry src dst i s = some s' ∧ Supplied s' c b m := by
  rw [Paging.cloneEntry]
  split
  · exact ⟨_, rfl, (h.less le_rfl (Nat.le_succ m)).congr rfl rfl rfl⟩
  · obtain ⟨s₁, h1, hs⟩ := h.allocFrame ⟨dst, i⟩ false false
    rw [h1]
    exact ⟨_, rfl, hs.congr rfl rfl rfl⟩

theorem Supplied.cloneEntries (h : Supplied s c b (is.length + m)) :
    ∃ s', cloneEntries src dst is s = some s' ∧ Supplied s' c b m := by
  induction is generalizing s with
  | nil => exact ⟨s, rfl, by simpa using h⟩
  | cons i is ih =>
    rw [List.length_cons, Nat.add_right_comm] at h
    obtain ⟨s₁, h1, hs⟩ := h.cloneEntry
    obtain ⟨s', h', hs'⟩ := ih hs
    exact ⟨s', by rw [Paging.cloneEntries, h1, Option.bind_some, h'], hs'⟩

theorem Supplied.clonePageTable (src : Nat) (h : Supplied s c (room true pageTableSize + b) (ptEntries + m)) :
    ∃ t pa s' c', clonePageTable src s = some (t, pa, s') ∧ Supplied s' c' b m := by
  obtain ⟨t, pa, s₁, hi, hs, -⟩ := h.ikmalloc (by decide)
  have hs' : Supplied { s₁.setTable t fun _ => 0 with made := t :: s₁.made } (t + pageTableSize) b
      ((List.range ptEntries).length + m) := by
    rw [List.length_range]
    exact hs.congr rfl rfl rfl
  obtain ⟨s', h', hs'⟩ := hs'.cloneEntries
  exact ⟨t, pa, s', _, clonePageTable_of hi h', hs'⟩

def copies (s : VmState) (src : Nat) (is : List Nat) : Nat := is.countP fun i => ¬ Links s src i

theorem copies_congr (hsrc : s'.pageDirectories src = s.pageDirectories src)
    (hk : s'.kernelPd = s.kernelPd)
    (hkernel : s'.pageDirectories s.kernelPd = s.pageDirectories s.kernelPd) :
    copies s' src is = copies s src is := by
  refine List.countP_congr fun i _ => ?_
  have hiff : Links s' src i ↔ Links s src i := by rw [Links, Links, hsrc, hk, hkernel]
  simp only [hiff]

theorem Supplied.clonePdes (h : Supplied s c (copies s src is * room true pageTableSize + b)
      (copies s src is * ptEntries + m)) (hne : src ≠ dst) (hk : s.kernelPd ≠ dst) :
    ∃ s' c', clonePdes src dst is s = some s' ∧ Supplied s' c' b m := by
  induction is generalizing s c with
  | nil => exact ⟨s, c, rfl, by simpa [copies] using h⟩
  | cons i is ih =>
    obtain ⟨s₁, c₁, h1, hsup, hother, hkernel⟩ : ∃ s₁ c₁, clonePde src dst i s = some s₁ ∧
        Supplied s₁ c₁ (copies s src is * room true pageTableSize + b)
          (copies s src is * ptEntries + m) ∧
        (∀ d ≠ dst, s₁.pageDirectories d = s.pageDirectories d) ∧ s₁.kernelPd = s.kernelPd := by
      by_cases hl : Links s src i
      · have hsame : copies s src (i :: is) = copies s src is := by simp [copies, hl]
        rw [hsame] at h
        obtain ⟨t, pde, h1⟩ := clonePde_links dst hl
        exact ⟨_, c, h1, h.congr rfl rfl rfl, fun d hd => if_neg hd, rfl⟩
      · have hmore : copies s src (i :: is) = copies s src is + 1 := by simp [copies, hl]
        rw [hmore, Nat.succ_mul, Nat.succ_mul] at h
        obtain ⟨t, pa, s₂, c₂, h2, hs⟩ := Supplied.clonePageTable
          ((s.pageDirectories src).tables i) (h.less (by omega) (by omega) :
          Supplied s c (room true pageTableSize + (copies s src is * room true pageTableSize + b))
            (ptEntries + (copies s src is * ptEntries + m)))
        obtain ⟨hds, hkernel, -⟩ := clonePageTable_same h2
        refine ⟨s₂.setPde dst i t (pa ||| pagePresent ||| pageRw ||| pageUser), c₂, ?_,
          hs.congr rfl rfl rfl, fun d hd => ?_, hkernel⟩
        · rw [clonePde]
          dsimp only
          rw [if_neg fun h0 => hl (.inl h0), if_neg fun h => hl (.inr h), h2]
          rfl
        · exact (if_neg hd).trans (congrFun hds d)
    have hcopies : copies s₁ src is = copies s src is :=
      copies_congr (hother src hne) hkernel (hother _ hk)
    obtain ⟨s', c', h', hs'⟩ := ih (hcopies ▸ hsup) (hkernel ▸ hk)
    exact ⟨s', c', by rw [Paging.clonePdes, h1, Option.bind_some, h'], hs'⟩

theorem Supplied.clonePageDirectory (h : Supplied s c (room true pageDirectorySize +
      (copies s src (List.range pdEntries) * room true pageTableSize + b))
      (copies s src (List.range pdEntries) * ptEntries + m)) (hsrc : src < c) (hk : s.kernelPd < c) :
    ∃ pd s' c', clonePageDirectory src s = some (pd, s') ∧ Supplied s' c' b m := by
  obtain ⟨pd, pa, s₁, hi, hs, hlt⟩ := h.ikmalloc (by decide)
  obtain ⟨x, hx⟩ : ∃ x, x = { s₁.setDirectory pd ⟨fun _ => 0, fun _ => 0, pa⟩ with
    directories := pd :: s₁.directories } := ⟨_, rfl⟩
  obtain ⟨hds, hkernel⟩ : s₁.pageDirectories = s.pageDirectories ∧ s₁.kernelPd = s.kernelPd := by
    obtain ⟨_, _, _, _, rfl⟩ := ikmalloc_same hi
    exact ⟨rfl, rfl⟩
  have hother : ∀ d < c, x.pageDirectories d = s.pageDirectories d := fun d hd => by
    rw [hx, ← hds]
    exact if_neg (by omega)
  have hxk : x.kernelPd = s.kernelPd := by
    rw [hx]
    exact hkernel
  have hcopies : copies x src (List.range pdEntries) = copies s src (List.range pdEntries) :=
    copies_congr (hother src hsrc) hxk (hother _ hk)
  have hxs : Supplied x (pd + pageDirectorySize)
      (copies s src (List.range pdEntries) * room true pageTableSize + b)
      (copies s src (List.range pdEntries) * ptEntries + m) := by
    rw [hx]
    exact hs.congr rfl rfl rfl
  rw [← hcopies] at hxs
  obtain ⟨s', c', h', hs'⟩ := hxs.clonePdes (by omega : src ≠ pd) (by omega)
  exact ⟨pd, s', c', clonePageDirectory_of hi (hx ▸ h'), hs'⟩

end

end Shigure.Paging
