import Shigure.Paging.Serving
import Shigure.Vm.Limits

/-!
# The limit of a heap that grows

`expand_heap` with all that it needs from the page tables. Its limit test
compares two sums that wrap, and the pages are there afterwards as long as
`get_page` finds memory for the tables that are missing.
-/

namespace Shigure.Paging

open Pm (FrameState frameSize freeFrames)
open Vm (Heap HeapState PageRequest PastLimit pageSize roundUp)

/-- The value that `expand_heap` returns, the heap, and the page tables behind it. -/
def growHeap (size : Nat) (heap : Heap) (s : VmState) : Option (Nat × Heap × VmState) := do
  let h := Vm.expandHeap size ⟨heap, kernelMem s, []⟩
  let s ← servePages h.2.pages s
  some (h.1, h.2.heap, s)

theorem expandHeap_eq (size : Nat) (heap : Heap) (s : VmState) :
    expandHeap size heap s = (growHeap size heap s).map Prod.snd := by
  rw [expandHeap, growHeap, expansion]
  cases servePages (Vm.expandHeap size ⟨heap, kernelMem s, []⟩).2.pages s <;> rfl

def KernelMaps (s : VmState) (v : Nat) : Prop := (frameAt s s.kernelPd v).isSome = true

/-- The call returns; its value is not 0 exactly if the rounded end is within the limit;
then the end has not moved back, and the kernel maps what is new; else nothing has
changed. -/
structure ObeysLimit (size : Nat) (heap : Heap) (s : VmState) (total : Nat) (heap' : Heap)
    (s' : VmState) : Prop where
  returns : growHeap size heap s = some (total, heap', s')
  limit : total ≠ 0 ↔ roundUp (heap.endAddr + size) ≤ heap.startAddr + heap.maxSize
  grown : total ≠ 0 → heap.endAddr ≤ heap'.endAddr ∧
    ∀ v, heap.endAddr ≤ v → v < heap'.endAddr → KernelMaps s' v
  refused : total = 0 → heap' = heap ∧ s' = s

def Provided : List PageRequest → VmState → Prop
  | [], _ => True
  | r :: rs, s => ∃ page s₁, getPage r.vaddr s.kernelPd true s = some (page, s₁) ∧
      page ≠ .null ∧ ∀ s₂, allocFrame page r.kernel r.writable s₁ = some s₂ → Provided rs s₂

section
variable {s s' : VmState} {v : Nat} {rs : List PageRequest}

-- ---------------------------------------------------------------------------
-- The kernel's directory
-- ---------------------------------------------------------------------------

theorem servePages_eq (rs : List PageRequest) (s : VmState) :
    servePages rs s = serve s.kernelPd rs s := by
  induction rs generalizing s with
  | nil => rfl
  | cons r rs ih =>
    rw [servePages, serve]
    refine Option.bind_congr fun x hx => ?_
    refine Option.bind_congr fun s₂ h2 => ?_
    rw [ih, (allocFrame_kept h2).kernelPd, (getPage_kept hx).1.kernelPd]

theorem provided_iff : Provided rs s ↔ ProvidedIn s.kernelPd rs s := by
  induction rs generalizing s with
  | nil => rfl
  | cons r rs ih =>
    refine exists_congr fun page => exists_congr fun s₁ => and_congr_right fun h1 =>
      and_congr_right fun _ => forall_congr' fun s₂ => forall_congr' fun h2 => ?_
    rw [ih, (allocFrame_kept h2).kernelPd, (getPage_kept h1).1.kernelPd]

theorem servePages_kernelPd (hs : servePages rs s = some s') : s'.kernelPd = s.kernelPd := by
  rw [servePages_eq] at hs
  exact (serve_kept hs).kernelPd

/-- All pages are there afterwards if and only if `get_page` never fails. -/
theorem kernelServed_iff (hw : World s) (hframes : rs.length ≤ (freeFrames s.frames).ncard)
    (hrs : ∀ r ∈ rs, r.vaddr < wordSize) :
    (∃ s', servePages rs s = some s' ∧ ∀ r ∈ rs, KernelMaps s' r.vaddr) ↔ Provided rs s := by
  rw [provided_iff, ← served_iff hw hw.kernelDirectory hframes hrs]
  refine exists_congr fun s' => ?_
  rw [← servePages_eq]
  refine and_congr_right fun hs => ?_
  rw [← servePages_kernelPd hs]
  rfl

end

-- ---------------------------------------------------------------------------
-- One call of `expand_heap`
-- ---------------------------------------------------------------------------

def LimitObeyed (size : Nat) (heap : Heap) (s : VmState) : Prop :=
  ∃ total heap' s', ObeysLimit size heap s total heap' s'

/-- The call is not confused by sums that wrap, and finds memory for the tables that are
missing. -/
def GrowsRight (size : Nat) (heap : Heap) (s : VmState) : Prop :=
  let newEnd := roundUp (heap.endAddr + size)
  let limit := heap.startAddr + heap.maxSize
  if newEnd < wordSize then
    limit < wordSize ∧ ¬ (heap.endAddr = heap.startAddr ∧ size = 0) ∧
      (newEnd ≤ limit → Provided (expansion size heap s).pages s)
  else
    limit % wordSize + wordSize < newEnd ∨
      heap.endAddr = heap.startAddr ∧ newEnd = heap.startAddr + wordSize

section
variable {size : Nat} {heap : Heap} {s : VmState}

theorem expansion_accepted (h : ¬ PastLimit size heap) : expansion size heap s =
    ⟨{ heap with endAddr := roundUp (heap.endAddr + size) % wordSize }, kernelMem s,
      Vm.mapPages heap (roundUp (heap.endAddr + size) % wordSize) (wordSize / pageSize)
        heap.endAddr⟩ := by
  rw [expansion, Vm.expandHeap_accepted h, List.nil_append]

theorem growHeap_refused (h : PastLimit size heap) : growHeap size heap s = some (0, heap, s) := by
  rw [growHeap, Vm.expandHeap_refused h]
  rfl

theorem growHeap_accepted (h : ¬ PastLimit size heap) : growHeap size heap s =
    (servePages (expansion size heap s).pages s).map fun s' =>
      (sub32 (roundUp (heap.endAddr + size) % wordSize) heap.startAddr,
        { heap with endAddr := roundUp (heap.endAddr + size) % wordSize }, s') := by
  rw [growHeap, expansion, Vm.expandHeap_accepted h]
  cases servePages _ s <;> rfl

theorem obeyed_refused (h : PastLimit size heap) :
    LimitObeyed size heap s ↔ heap.startAddr + heap.maxSize < roundUp (heap.endAddr + size) := by
  have hg := growHeap_refused (s := s) h
  constructor
  · rintro ⟨total, heap', s', hr⟩
    obtain ⟨rfl, -⟩ := Option.some.inj (hg.symm.trans hr.returns)
    exact Nat.not_le.mp (mt hr.limit.mpr (not_not_intro rfl))
  · intro hlt
    exact ⟨0, heap, s, hg, iff_of_false (not_not_intro rfl) (Nat.not_le.mpr hlt),
      fun h0 => absurd rfl h0, fun _ => ⟨rfl, rfl⟩⟩

variable (hw : World s) (hstart : pageSize ∣ heap.startAddr) (hend : pageSize ∣ heap.endAddr)
  (hle : heap.startAddr ≤ heap.endAddr) (hlt : heap.endAddr < wordSize)
include hw hstart hend hle hlt

omit hlt in
theorem obeyed_grown (h : ¬ PastLimit size heap) (hfit : roundUp (heap.endAddr + size) < wordSize)
    (hframes : (expansion size heap s).pages.length ≤ (freeFrames s.frames).ncard) :
    LimitObeyed size heap s ↔ roundUp (heap.endAddr + size) ≤ heap.startAddr + heap.maxSize ∧
      ¬ (heap.endAddr = heap.startAddr ∧ size = 0) ∧ Provided (expansion size heap s).pages s := by
  obtain ⟨newEnd, hnew⟩ : ∃ e, e = roundUp (heap.endAddr + size) := ⟨_, rfl⟩
  have hg := growHeap_accepted (s := s) h
  have hpages : (expansion size heap s).pages =
      Vm.mapPages heap newEnd (wordSize / pageSize) heap.endAddr := by
    rw [expansion_accepted h, ← hnew, Nat.mod_eq_of_lt (hnew ▸ hfit)]
  rw [Nat.mod_eq_of_lt hfit, ← hnew] at hg
  rw [← hnew] at hfit ⊢
  have hpast : heap.endAddr + size ≤ newEnd := hnew ▸ Vm.le_roundUp _
  have hdvd : pageSize ∣ newEnd := hnew ▸ Vm.dvd_roundUp _
  have hzero : newEnd = heap.startAddr ↔ heap.endAddr = heap.startAddr ∧ size = 0 := by
    constructor
    · intro he
      omega
    · rintro ⟨he, rfl⟩
      rw [hnew, Nat.add_zero, he, Vm.roundUp_of_dvd hstart]
  rw [sub32_eq (show heap.startAddr ≤ newEnd by omega) hfit] at hg
  have hmem : ∀ r : PageRequest, r ∈ (expansion size heap s).pages ↔
      r = ⟨r.vaddr, heap.supervisor, !heap.readonly⟩ ∧ heap.endAddr ≤ r.vaddr ∧ r.vaddr < newEnd ∧
        pageSize ∣ r.vaddr := by
    intro r
    rw [hpages]
    exact Vm.mem_mapPages hfit hend hdvd
  have hserved := kernelServed_iff hw hframes fun r hr => ((hmem r).mp hr).2.2.1.trans hfit
  constructor
  · rintro ⟨total, heap', s', hr⟩
    obtain ⟨s'', hs, he⟩ := Option.map_eq_some_iff.mp (hg.symm.trans hr.returns)
    obtain ⟨rfl, rfl, rfl⟩ : _ = total ∧ _ = heap' ∧ s'' = s' := by
      simpa only [Prod.mk.injEq] using he
    have hlimit := hr.limit
    rw [← hnew] at hlimit
    have hne : newEnd ≠ heap.startAddr := by
      intro he
      have hover := hlimit.mpr (he.le.trans (Nat.le_add_right _ _))
      exact hover (Nat.sub_eq_zero_of_le he.le)
    have htotal : newEnd - heap.startAddr ≠ 0 := by omega
    obtain ⟨-, hall⟩ := hr.grown htotal
    refine ⟨hlimit.mp htotal, mt hzero.mpr hne, hserved.mp ⟨s'', hs, fun r hr => ?_⟩⟩
    obtain ⟨-, hlo, hhi, -⟩ := (hmem r).mp hr
    exact hall r.vaddr hlo hhi
  · rintro ⟨hlimit, hne, hprovided⟩
    obtain ⟨s', hs, hall⟩ := hserved.mpr hprovided
    have htotal : newEnd - heap.startAddr ≠ 0 := by
      have := mt hzero.mp hne
      omega
    refine ⟨_, _, s', by rw [hg, hs, Option.map_some], iff_of_true htotal (hnew ▸ hlimit), fun _ => ?_,
      fun h0 => absurd h0 htotal⟩
    refine ⟨by dsimp only; omega, fun v hlo hhi => ?_⟩
    -- the request for the page of the address
    have hpage := hall ⟨v / frameSize * frameSize, heap.supervisor, !heap.readonly⟩ ?_
    · rw [KernelMaps, frameAt_same_page (w := v / frameSize * frameSize)
        (by simp only [frameSize]; omega)]
      exact hpage
    · refine (hmem _).mpr ⟨rfl, ?_⟩
      simp only [frameSize, pageSize] at *
      omega

omit hw hstart in
/-- The sum has wrapped: no page is asked for, and the end moves back or stays. -/
theorem obeyed_wrapped (hmax : heap.maxSize < wordSize) (hsize : size < wordSize)
    (h : ¬ PastLimit size heap) (hwrap : wordSize ≤ roundUp (heap.endAddr + size)) :
    LimitObeyed size heap s ↔ heap.endAddr = heap.startAddr ∧
      roundUp (heap.endAddr + size) = heap.startAddr + wordSize := by
  obtain ⟨newEnd, hnew⟩ : ∃ e, roundUp (heap.endAddr + size) = wordSize + e :=
    Nat.exists_eq_add_of_le hwrap
  have hback : newEnd ≤ heap.endAddr := by
    have hdvd : pageSize ∣ heap.endAddr + wordSize := (Nat.dvd_add_right hend).mpr (by decide)
    have := Vm.roundUp_le hdvd (show heap.endAddr + size ≤ heap.endAddr + wordSize by omega)
    omega
  have hmod : (wordSize + newEnd) % wordSize = newEnd := by
    rw [Nat.add_mod_left, Nat.mod_eq_of_lt (hback.trans_lt hlt)]
  have hg := growHeap_accepted (s := s) h
  rw [expansion_accepted h, hnew, hmod, Vm.mapPages_nil hback] at hg
  have hzero : sub32 newEnd heap.startAddr = 0 ↔ newEnd = heap.startAddr := by
    simp only [sub32, wordSize] at *
    omega
  rw [hnew]
  constructor
  · rintro ⟨total, heap', s', hr⟩
    have hlimit := hr.limit
    rw [hnew] at hlimit
    obtain ⟨rfl, rfl, rfl⟩ : _ = total ∧ _ = heap' ∧ s = s' := by
      simpa only [Prod.mk.injEq] using Option.some.inj (hg.symm.trans hr.returns)
    by_cases htotal : newEnd = heap.startAddr
    · have hsame := congrArg Heap.endAddr (hr.refused (hzero.mpr htotal)).1
      exact ⟨hsame.symm.trans htotal, by omega⟩
    · have hgrown : heap.endAddr ≤ newEnd := (hr.grown (mt hzero.mp htotal)).1
      have := hlimit.mp (mt hzero.mp htotal)
      omega
  · rintro ⟨he, hstart⟩
    have htotal : newEnd = heap.startAddr := by omega
    refine ⟨_, _, s, hg, iff_of_false (not_not_intro (hzero.mpr htotal)) ?_,
      fun h0 => absurd (hzero.mpr htotal) h0, fun _ => ⟨?_, rfl⟩⟩
    · rw [hnew]
      omega
    · rw [htotal.trans he.symm]

/-- `expand_heap` obeys the limit in exactly these cases. -/
theorem growth_obeys_iff (hmax : heap.maxSize < wordSize) (hsize : size < wordSize)
    (hframes : (expansion size heap s).pages.length ≤ (freeFrames s.frames).ncard) :
    LimitObeyed size heap s ↔ GrowsRight size heap s := by
  have hlast : roundUp (heap.endAddr + size) ≤ heap.endAddr + wordSize :=
    Vm.roundUp_le ((Nat.dvd_add_right hend).mpr (by decide)) (by omega)
  have hpast : heap.endAddr + size ≤ roundUp (heap.endAddr + size) := Vm.le_roundUp _
  have hempty : heap.endAddr = heap.startAddr ∧ size = 0 →
      roundUp (heap.endAddr + size) = heap.startAddr := by
    rintro ⟨he, rfl⟩
    rw [Nat.add_zero, he, Vm.roundUp_of_dvd hstart]
  unfold GrowsRight
  by_cases hfit : roundUp (heap.endAddr + size) < wordSize
  · rw [if_pos hfit]
    by_cases h : PastLimit size heap
    · rw [obeyed_refused h]
      rw [PastLimit, add32, Nat.mod_eq_of_lt hfit] at h
      constructor
      · intro hlimit
        refine ⟨hlimit.trans hfit, fun he => ?_, fun hge => absurd hlimit (Nat.not_lt.mpr hge)⟩
        have := hempty he
        omega
      · rintro ⟨hlimit, -⟩
        rwa [Nat.mod_eq_of_lt hlimit] at h
    · rw [obeyed_grown hw hstart hend hle h hfit hframes]
      rw [PastLimit, add32, Nat.mod_eq_of_lt hfit, Nat.not_lt] at h
      -- a limit that has wrapped is before the start
      have hlimit : heap.startAddr + heap.maxSize < wordSize := by
        simp only [wordSize] at *
        omega
      rw [Nat.mod_eq_of_lt hlimit] at h
      constructor
      · rintro ⟨-, hne, hprovided⟩
        exact ⟨hlimit, hne, fun _ => hprovided⟩
      · rintro ⟨-, hne, hprovided⟩
        exact ⟨h, hne, hprovided h⟩
  · rw [if_neg hfit]
    have hmod : roundUp (heap.endAddr + size) % wordSize =
        roundUp (heap.endAddr + size) - wordSize := by
      simp only [wordSize] at *
      omega
    by_cases h : PastLimit size heap
    · rw [obeyed_refused h]
      rw [PastLimit, add32, hmod] at h
      refine iff_of_true ?_ (.inl (by omega))
      simp only [wordSize] at *
      omega
    · rw [obeyed_wrapped hend hle hlt hmax hsize h (Nat.not_lt.mp hfit)]
      rw [PastLimit, add32, hmod] at h
      constructor
      · exact .inr
      · rintro (hover | hsame)
        · exact absurd (by omega) h
        · exact hsame

end

/-- A heap of a page that grows by another, under the table of `kheap`. -/
theorem growth_obeys_small : ∃ s, Boots 0x8000 0x1F0000 unbooted s ∧
    LimitObeyed 0x1000 (smallHeap 0xC0100000 0xC0101000) s := by
  obtain ⟨k₁, _, _, _, h1, -⟩ := firstHeap_grows
  obtain ⟨first, p, s, hb⟩ := smallBoot h1
  have hpages : (expansion 0x1000 (smallHeap 0xC0100000 0xC0101000) s).pages =
      [⟨0xC0101000, false, true⟩] := by
    rw [@expansion_one _ 0x1000 0xC0102000 s (by decide +kernel) (by decide) (by decide)
      (by decide +kernel)]
    rfl
  refine ⟨s, hb.boots, (growth_obeys_iff hb.boots.world (by decide) (by decide) (by decide)
    (by decide) (by decide) (by decide) ?_).mpr ?_⟩
  · rw [hpages]
    exact (show 1 ≤ 30000 by decide).trans hb.frames_left
  · rw [GrowsRight, if_pos (by decide)]
    refine ⟨by decide, by decide, fun _ => ?_⟩
    rw [hpages]
    exact ⟨_, _, getPage_old hb.heapTable, fun he => hb.heapTable (congrArg Slot.table he),
      fun _ _ => trivial⟩

/-- `kheap` as `vm_initialize` makes it; `expand_heap` does not look at the tree. -/
def kernelHeap : Heap :=
  ⟨.nil, Vm.KHeap.kheapStart, Vm.KHeap.kheapStart + Vm.KHeap.kheapInitialSize, Vm.KHeap.kheapMaxSize,
    false, false⟩

/-- The kernel heap may not grow by a page, although the limit is far away. -/
theorem growth_refused : ¬ ∀ (size : Nat) (heap : Heap) (s : VmState), World s →
    pageSize ∣ heap.startAddr → pageSize ∣ heap.endAddr → heap.startAddr ≤ heap.endAddr →
    heap.endAddr < wordSize → heap.maxSize < wordSize → size < wordSize →
    (expansion size heap s).pages.length ≤ (freeFrames s.frames).ncard →
    LimitObeyed size heap s := by
  intro hall
  obtain ⟨k₁, _, _, _, h1, -⟩ := firstHeap_grows
  obtain ⟨first, p, s, hb⟩ := smallBoot h1
  have hpast : PastLimit 0x1000 kernelHeap := by decide +kernel
  have hpages : (expansion 0x1000 kernelHeap s).pages = [] := by
    rw [expansion, Vm.expandHeap_refused hpast]
  have hobeyed := hall 0x1000 kernelHeap s hb.boots.world (by decide) (by decide) (by decide) (by decide)
    (by decide) (by decide) (by rw [hpages]; exact Nat.zero_le _)
  exact absurd ((obeyed_refused hpast).mp hobeyed) (by decide)

end Shigure.Paging
