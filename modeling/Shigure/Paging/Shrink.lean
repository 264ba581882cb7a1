import Shigure.Paging.Limits

/-!
# Heaps that shrink

`reduce_heap` gives pages back from the last one down, but its loop ends before the
page at the new end. What the kernel maps, and which frames are free, is followed
page by page through `expand_heap` and `reduce_heap`.
-/

namespace Shigure.Paging

open Pm (FrameState frameSize pfree freeFrames)
open Vm (Heap HeapState PageRequest PastLimit pageSize roundUp)

def heapMinSize : Nat := 0x70000

/-- `while (new_end_addr < temp_end_addr)`, one page a round, from the last one down. -/
def unmapPages (newEndAddr : Nat) : Nat → Nat → VmState → VmState
  | 0, _, s => s
  | fuel + 1, tempEndAddr, s =>
    if newEndAddr < tempEndAddr then
      unmapPages newEndAddr fuel (sub32 tempEndAddr pageSize)
        (freeFrame (findPage tempEndAddr s.kernelPd s) s)
    else s

/-- The value returned, the heap, and the page tables behind it. -/
def reduceHeap (size : Nat) (heap : Heap) (s : VmState) : Nat × Heap × VmState :=
  let newEndAddr := align (sub32 heap.endAddr size) pageSize
  if newEndAddr = heap.endAddr then (0, heap, s)
  else
    -- not smaller than the minimum
    let newEndAddr :=
      if sub32 newEndAddr heap.startAddr < heapMinSize then add32 heap.startAddr heapMinSize
      else newEndAddr
    if newEndAddr > add32 heap.startAddr heap.maxSize then (0, heap, s)
    else
      (sub32 newEndAddr heap.startAddr, { heap with endAddr := newEndAddr },
        unmapPages newEndAddr (wordSize / pageSize) (sub32 heap.endAddr pageSize) s)

/-- The kernel no longer maps what is between the two ends, maps the rest as before, and
has the frames back. -/
structure Unmapped (s s' : VmState) (lo hi : Nat) : Prop where
  gone : ∀ v, lo ≤ v → v < hi → ¬ KernelMaps s' v
  kept : ∀ v < wordSize, v < lo ∨ hi ≤ v → frameAt s' s'.kernelPd v = frameAt s s.kernelPd v
  frames : freeFrames s'.frames = freeFrames s.frames ∪
    {f | ∃ v, lo ≤ v ∧ v < hi ∧ frameAt s s.kernelPd v = some f}

/-- `reduce_heap` returns 0 and changes nothing, or lowers the end to a page that leaves
the minimum, and unmaps what is behind it. -/
def ReducesRight (size : Nat) (heap : Heap) (s : VmState) : Prop :=
  reduceHeap size heap s = (0, heap, s) ∨
  ∃ total newEndAddr s',
    reduceHeap size heap s = (total, { heap with endAddr := newEndAddr }, s') ∧
    newEndAddr < heap.endAddr ∧ pageSize ∣ newEndAddr ∧
    heap.startAddr + heapMinSize ≤ newEndAddr ∧ Unmapped s s' newEndAddr heap.endAddr

/-- `expand_heap` has succeeded: the end is `size` further on, and the pages are there. -/
structure Expanded (size : Nat) (heap : Heap) (s : VmState) (heap' : Heap) (s' : VmState) : Prop where
  returns : ∃ total, total ≠ 0 ∧ growHeap size heap s = some (total, heap', s')
  grown : heap'.endAddr = heap.endAddr + size
  mapped : ∀ v, heap.endAddr ≤ v → v < heap'.endAddr → KernelMaps s' v

structure SameMap (s s' : VmState) : Prop where
  maps : ∀ v < wordSize, frameAt s' s'.kernelPd v = frameAt s s.kernelPd v
  frames : freeFrames s'.frames = freeFrames s.frames

structure SameIn (s s' : VmState) (pd : Nat) : Prop where
  maps : ∀ v < wordSize, frameAt s' pd v = frameAt s pd v
  frames : freeFrames s'.frames = freeFrames s.frames

section
variable {s s' s₁ s₂ : VmState} {p : Slot} {pd u v f : Nat}

theorem sameMap_iff (h : s'.kernelPd = s.kernelPd) : SameMap s s' ↔ SameIn s s' s.kernelPd := by
  constructor
  · rintro ⟨hmaps, hframes⟩
    rw [h] at hmaps
    exact ⟨hmaps, hframes⟩
  · rintro ⟨hmaps, hframes⟩
    rw [← h] at hmaps
    refine ⟨fun v hv => ?_, hframes⟩
    rw [hmaps v hv, h]

theorem SameIn.refl (s : VmState) : SameIn s s pd := ⟨fun _ _ => rfl, rfl⟩

theorem SameIn.trans (h₁ : SameIn s s₁ pd) (h₂ : SameIn s₁ s₂ pd) : SameIn s s₂ pd :=
  ⟨fun v hv => (h₂.maps v hv).trans (h₁.maps v hv), h₂.frames.trans h₁.frames⟩

theorem SameIn.symm (h : SameIn s s' pd) : SameIn s' s pd :=
  ⟨fun v hv => (h.maps v hv).symm, h.frames.symm⟩

-- ---------------------------------------------------------------------------
-- Giving a page back
-- ---------------------------------------------------------------------------

theorem freeFrame_kept (p : Slot) (s : VmState) : Kept s (freeFrame p s) := by
  rw [freeFrame]
  split
  · exact .refl s
  · exact ⟨rfl, rfl, rfl, rfl⟩

/-- A mapped page is given back: all but a page with frame 0 are unmapped. -/
structure GivenBack (s s' : VmState) (pd v f : Nat) : Prop where
  world : World s'
  directory : pd ∈ s'.directories
  kept : ∀ u < wordSize, u / frameSize ≠ v / frameSize → frameAt s' pd u = frameAt s pd u
  page : frameAt s' pd v = if f = 0 then some 0 else none
  frames : freeFrames s'.frames = if f = 0 then freeFrames s.frames else insert f (freeFrames s.frames)

theorem World.giveBack (hw : World s) (hpd : pd ∈ s.directories) (hv : v < wordSize)
    (hf : frameAt s pd v = some f) : GivenBack s (Paging.freeFrame (findPage v pd s) s) pd v f := by
  have hm : Maps s pd v := by rw [Maps, hf]; rfl
  have h0 := hw.maps_table hpd hv hm
  have hmade : (slotAt s pd v).table ∈ s.made := hw.table h0
  have hpfn : pteToPfn (s.entry (slotAt s pd v)) = f := (frameAt_eq_some.mp hf).2.2
  have hworld := hw.freeFrame hmade
  have hpd' : pd ∈ (Paging.freeFrame (slotAt s pd v) s).directories := by
    rwa [(freeFrame_kept _ s).directories]
  rw [findPage_slotAt h0]
  by_cases hz : f = 0
  · have hsame : Paging.freeFrame (slotAt s pd v) s = s := if_pos (hpfn.trans hz)
    rw [hsame]
    exact ⟨hw, hpd, fun _ _ _ => rfl, by rw [if_pos hz, hf, hz], by rw [if_pos hz]⟩
  · have hfree : Paging.freeFrame (slotAt s pd v) s =
        { s with frames := pfree f frameSize s.frames }.setEntry (slotAt s pd v)
          (s.entry (slotAt s pd v) &&& pageRw) := by
      rw [Paging.freeFrame, hpfn]
      exact if_neg hz
    have hlt := (hw.owned.used _ hmade (.inl (hpfn ▸ hz))).1
    rw [hpfn] at hlt
    rw [hfree] at hworld hpd' ⊢
    refine ⟨hworld, hpd', fun u hu hne => hw.frameAt_setEntry hpd hu hv h0 hne, ?_, ?_⟩
    · have hgone : anyOf (s.entry (slotAt s pd v) &&& pageRw) pagePresent ≠ true :=
        fun h => not_mapped_and_rw _ (.inr h)
      rw [if_neg hz, hw.frameAt_setEntry_self hpd hv h0, if_neg hgone]
    · rw [if_neg hz]
      exact Pm.pfree_freeFrames hw.owned.layout hlt

def unmapAll (pd : Nat) : List Nat → VmState → VmState
  | [], s => s
  | v :: vs, s => unmapAll pd vs (freeFrame (findPage v pd s) s)

theorem unmapAll_append (vs ws : List Nat) (s : VmState) :
    unmapAll pd (vs ++ ws) s = unmapAll pd ws (unmapAll pd vs s) := by
  induction vs generalizing s with
  | nil => rfl
  | cons v vs ih => exact ih _

theorem unmapAll_kept (vs : List Nat) (s : VmState) : Kept s (unmapAll pd vs s) := by
  induction vs generalizing s with
  | nil => exact .refl s
  | cons v vs ih => exact (freeFrame_kept _ s).trans (ih _)

/-- The pages behind `a`, without the one at `a` itself. -/
def pagesBehind (a k : Nat) : List Nat := (List.range k).map fun i => a + (i + 1) * pageSize

theorem mem_pagesBehind {a k : Nat} :
    v ∈ pagesBehind a k ↔ ∃ i < k, a + (i + 1) * pageSize = v := by
  simp only [pagesBehind, List.mem_map, List.mem_range]

/-- The loop of `reduce_heap` does not reach the page at the new end. -/
theorem unmapPages_eq {a : Nat} (k fuel : Nat) (hfuel : k < fuel)
    (hfit : a + k * pageSize < wordSize) (s : VmState) :
    unmapPages a fuel (a + k * pageSize) s =
      unmapAll s.kernelPd (pagesBehind a k).reverse s := by
  induction k generalizing fuel s with
  | zero =>
    obtain ⟨fuel, rfl⟩ := Nat.exists_eq_add_one_of_ne_zero (Nat.ne_of_gt hfuel)
    rw [unmapPages, if_neg (by omega)]
    rfl
  | succ k ih =>
    obtain ⟨fuel, rfl⟩ := Nat.exists_eq_add_one_of_ne_zero (Nat.ne_of_gt ((Nat.zero_lt_succ k).trans hfuel))
    have hdown : sub32 (a + (k + 1) * pageSize) pageSize = a + k * pageSize := by
      rw [Nat.succ_mul] at *
      rw [sub32_eq (by omega) hfit]
      omega
    have hlist : (pagesBehind a (k + 1)).reverse =
        (a + (k + 1) * pageSize) :: (pagesBehind a k).reverse := by
      rw [pagesBehind, List.range_succ, List.map_append, List.reverse_append]
      rfl
    have hlt : a < a + (k + 1) * pageSize := by
      simp only [pageSize]
      omega
    rw [unmapPages, if_pos hlt, hdown, hlist, unmapAll]
    rw [Nat.succ_mul] at hfit
    have h := ih fuel (by omega) (by omega) (freeFrame (findPage (a + (k + 1) * pageSize) s.kernelPd s) s)
    rwa [(freeFrame_kept _ s).kernelPd] at h

structure AllGivenBack (s s' : VmState) (pd : Nat) (vs : List Nat) : Prop where
  world : World s'
  directory : pd ∈ s'.directories
  kept : ∀ u < wordSize, (∀ v ∈ vs, u / frameSize ≠ v / frameSize) → frameAt s' pd u = frameAt s pd u
  pages : ∀ v ∈ vs, ∀ f, frameAt s pd v = some f → frameAt s' pd v = if f = 0 then some 0 else none
  zero : 0 ∈ freeFrames s'.frames ↔ 0 ∈ freeFrames s.frames

theorem World.unmapAll (hw : World s) (hpd : pd ∈ s.directories) {vs : List Nat} (hlt : ∀ v ∈ vs, v < wordSize)
    (hapart : vs.Pairwise fun u v => u / frameSize ≠ v / frameSize)
    (hm : ∀ v ∈ vs, Maps s pd v) : AllGivenBack s (unmapAll pd vs s) pd vs := by
  induction vs generalizing s with
  | nil => exact ⟨hw, hpd, fun _ _ _ => rfl, fun v hv => absurd hv List.not_mem_nil, Iff.rfl⟩
  | cons v vs ih =>
    obtain ⟨hhead, hapart⟩ := List.pairwise_cons.mp hapart
    have hv := hlt v List.mem_cons_self
    have hrest := fun u hu => hlt u (List.mem_cons_of_mem v hu)
    obtain ⟨f, hf⟩ := Option.isSome_iff_exists.mp (hm v List.mem_cons_self)
    have hg := hw.giveBack hpd hv hf
    rw [Paging.unmapAll]
    generalize Paging.freeFrame (findPage v pd s) s = s₁ at hg ⊢
    have hother : ∀ u ∈ vs, frameAt s₁ pd u = frameAt s pd u :=
      fun u hu => hg.kept u (hrest u hu) fun he => hhead u hu he.symm
    have h := ih hg.world hg.directory hrest hapart fun u hu => by
      rw [Maps, hother u hu]
      exact hm u (List.mem_cons_of_mem v hu)
    refine ⟨h.world, h.directory, fun u hu hne => ?_, fun u hu g hg' => ?_, h.zero.trans ?_⟩
    · rw [h.kept u hu fun w hw => hne w (List.mem_cons_of_mem v hw)]
      exact hg.kept u hu (hne v List.mem_cons_self)
    · rcases List.mem_cons.mp hu with rfl | hu
      · obtain rfl := Option.some.inj (hf.symm.trans hg')
        rw [h.kept u hv hhead, hg.page]
      · exact h.pages u hu g ((hother u hu).trans hg')
    · rw [hg.frames]
      split
      · rfl
      · rename_i hne
        exact Set.mem_insert_iff.trans (or_iff_right (Ne.symm hne))

theorem pagesBehind_apart (a k : Nat) :
    (pagesBehind a k).Pairwise fun u v => u / frameSize ≠ v / frameSize := by
  rw [pagesBehind, List.pairwise_map]
  refine List.pairwise_lt_range.imp fun {i j} hij => ?_
  simp only [frameSize, pageSize]
  omega

theorem pagesBehind_reverse_apart (a k : Nat) :
    (pagesBehind a k).reverse.Pairwise fun u v => u / frameSize ≠ v / frameSize :=
  List.pairwise_reverse.mpr ((pagesBehind_apart a k).imp Ne.symm)

end

-- ---------------------------------------------------------------------------
-- One call of `reduce_heap`
-- ---------------------------------------------------------------------------

/-- `reduce_heap` gives up: less than a page, or an end beyond the limit, both as the
code computes them. -/
def GivesUp (size : Nat) (heap : Heap) : Prop :=
  let newEnd := (heap.endAddr + wordSize - size / pageSize * pageSize) % wordSize
  size < pageSize ∨ add32 heap.startAddr heap.maxSize <
    if sub32 newEnd heap.startAddr < heapMinSize then add32 heap.startAddr heapMinSize else newEnd

section
variable {size : Nat} {heap : Heap} {s : VmState}
variable (hend : pageSize ∣ heap.endAddr) (hlt : heap.endAddr < wordSize) (hsize : size < wordSize)
include hend hlt hsize

theorem align_sub32 : align (sub32 heap.endAddr size) pageSize =
    (heap.endAddr + wordSize - size / pageSize * pageSize) % wordSize := by
  have hsub : sub32 heap.endAddr size = (heap.endAddr + (wordSize - size)) % wordSize := by
    rw [sub32, Nat.mod_eq_of_lt hsize]
  rw [hsub, Vm.align_mod, roundUp]
  simp only [pageSize, wordSize] at *
  omega

theorem align_sub32_eq_iff :
    align (sub32 heap.endAddr size) pageSize = heap.endAddr ↔ size < pageSize := by
  rw [align_sub32 hend hlt hsize]
  simp only [pageSize, wordSize] at *
  omega

theorem reduceHeap_givesUp (h : GivesUp size heap) : reduceHeap size heap s = (0, heap, s) := by
  rw [reduceHeap]
  by_cases hpart : size < pageSize
  · exact if_pos ((align_sub32_eq_iff hend hlt hsize).mpr hpart)
  · have hlimit := h.resolve_left hpart
    rw [← align_sub32 hend hlt hsize] at hlimit
    rw [if_neg (mt (align_sub32_eq_iff hend hlt hsize).mp hpart)]
    exact if_pos hlimit

theorem reduceHeap_reduces (h : ¬ GivesUp size heap) : ∃ newEnd,
    reduceHeap size heap s = (sub32 newEnd heap.startAddr, { heap with endAddr := newEnd },
      unmapPages newEnd (wordSize / pageSize) (sub32 heap.endAddr pageSize) s) ∧
    heapMinSize ≤ sub32 newEnd heap.startAddr := by
  rw [GivesUp, not_or, ← align_sub32 hend hlt hsize] at h
  obtain ⟨hpart, hlimit⟩ := h
  rw [reduceHeap, if_neg (mt (align_sub32_eq_iff hend hlt hsize).mp hpart)]
  dsimp only
  rw [if_neg hlimit]
  refine ⟨_, rfl, ?_⟩
  split
  · simp only [sub32, add32, heapMinSize, wordSize]
    omega
  · exact Nat.not_lt.mp ‹_›

/-- A call that does not give up leaves the page at its new end mapped. -/
theorem reduces_right_iff (hw : World s) (hmapped : ∀ v, heap.startAddr ≤ v → v < heap.endAddr →
    KernelMaps s v) : ReducesRight size heap s ↔ GivesUp size heap := by
  refine ⟨fun hr => ?_, fun h => .inl (reduceHeap_givesUp hend hlt hsize h)⟩
  by_contra h
  obtain ⟨newEnd, hcall, hmin⟩ := reduceHeap_reduces (s := s) hend hlt hsize h
  rcases hr with hzero | ⟨total, newEnd', s', hr, hlower, hdvd, hroom, hunmapped⟩
  · have htotal := congrArg Prod.fst (hcall.symm.trans hzero)
    dsimp only at htotal
    rw [htotal] at hmin
    exact absurd hmin (by decide)
  · obtain ⟨-, he, rfl⟩ : _ = total ∧ _ = _ ∧ _ = s' := by
      simpa only [Prod.mk.injEq] using hcall.symm.trans hr
    obtain rfl : newEnd = newEnd' := congrArg Heap.endAddr he
    obtain ⟨k, hk⟩ : ∃ k, heap.endAddr = newEnd + (k + 1) * pageSize := by
      obtain ⟨i, rfl⟩ := hdvd
      obtain ⟨j, hj⟩ := hend
      rw [hj] at hlower ⊢
      refine ⟨j - i - 1, ?_⟩
      have : i < j := Nat.lt_of_mul_lt_mul_left hlower
      rw [Nat.mul_comm _ pageSize, ← Nat.mul_add]
      congr 1
      omega
    have hstart : heap.startAddr ≤ newEnd := (Nat.le_add_right _ _).trans hroom
    have htemp : sub32 heap.endAddr pageSize = newEnd + k * pageSize := by
      rw [sub32_eq (by rw [hk, Nat.succ_mul]; omega) hlt, hk, Nat.succ_mul]
      omega
    have hloop : unmapPages newEnd (wordSize / pageSize) (sub32 heap.endAddr pageSize) s =
        unmapAll s.kernelPd (pagesBehind newEnd k).reverse s := by
      rw [htemp]
      refine unmapPages_eq k _ ?_ ?_ s
      · simp only [pageSize, wordSize] at *
        omega
      · rw [Nat.succ_mul] at hk
        omega
    have hpage : ∀ v ∈ (pagesBehind newEnd k).reverse, newEnd + pageSize ≤ v ∧ v < heap.endAddr := by
      intro v hv
      obtain ⟨i, hi, rfl⟩ := mem_pagesBehind.mp (List.mem_reverse.mp hv)
      simp only [pageSize] at *
      omega
    have hback := hw.unmapAll hw.kernelDirectory (fun v hv => (hpage v hv).2.trans hlt)
      (pagesBehind_reverse_apart newEnd k)
      fun v hv => hmapped v (hstart.trans ((Nat.le_add_right _ _).trans (hpage v hv).1)) (hpage v hv).2
    -- the page at the new end
    refine hunmapped.gone newEnd le_rfl hlower ?_
    rw [KernelMaps, hloop, (unmapAll_kept _ s).kernelPd, hback.kept newEnd (hlower.trans hlt) ?_]
    · exact hmapped newEnd hstart hlower
    · intro v hv
      have := (hpage v hv).1
      simp only [frameSize, pageSize] at *
      omega

end

-- ---------------------------------------------------------------------------
-- Growing, and giving back
-- ---------------------------------------------------------------------------

section
variable {s s' s₁ : VmState} {pd v f : Nat} {r : PageRequest} {rs : List PageRequest}

theorem Served.same {p : Nat} (h : Served s s' pd v f) (hp : frameAt s pd v = some p)
    (hne : p ≠ 0) : SameIn s s' pd := by
  rcases h.frames with ⟨hf, -, hfree⟩ | ⟨hnone, -⟩
  · refine ⟨fun u hu => ?_, hfree⟩
    by_cases he : u / frameSize = v / frameSize
    · rw [frameAt_same_page he, frameAt_same_page (s := s) he, h.page, hf]
    · exact h.kept u hu he
  · exact absurd (hnone p hp) hne

/-- New pages with frames other than 0 are given back without a trace. -/
theorem undone (hw : World s) (hpd : pd ∈ s.directories) (hlt : ∀ v ∈ addrs rs, v < wordSize)
    (hapart : (addrs rs).Pairwise fun u v => u / frameSize ≠ v / frameSize)
    (hs : serve pd rs s = some s') (hm : ∀ v ∈ addrs rs, Maps s' pd v)
    (hnew : ∀ v ∈ addrs rs, frameAt s pd v = none) (h0 : 0 ∉ freeFrames s.frames) :
    SameIn s (unmapAll pd (addrs rs).reverse s') pd := by
  induction rs generalizing s with
  | nil =>
    cases hs
    exact .refl _
  | cons r rs ih =>
    rw [addrs_cons] at *
    obtain ⟨hhead, hapart⟩ := List.pairwise_cons.mp hapart
    have hr := hlt r.vaddr List.mem_cons_self
    have hrest := fun v hv => hlt v (List.mem_cons_of_mem r.vaddr hv)
    have hmrest := fun v hv => hm v (List.mem_cons_of_mem r.vaddr hv)
    obtain ⟨f, s₂, hf, hlater⟩ := serve_first hw hpd hr hs (hm r.vaddr List.mem_cons_self)
    have hnone := hnew r.vaddr List.mem_cons_self
    obtain ⟨hleast, hfree⟩ : IsLeast (freeFrames s.frames) f ∧
        freeFrames s₂.frames = freeFrames s.frames \ {f} := by
      rcases hf.frames with ⟨hsame, -⟩ | ⟨-, hleast, hfree⟩
      · rw [hnone] at hsame
        cases hsame
      · exact ⟨hleast, hfree⟩
    have hne : f ≠ 0 := by
      rintro rfl
      exact h0 hleast.1
    have hback := ih hf.world hf.directory hrest hapart hlater hmrest
      (fun v hv => by
        rw [hf.kept v (hrest v hv) fun he => hhead v hv he.symm]
        exact hnew v (List.mem_cons_of_mem r.vaddr hv))
      (fun hz => h0 (hf.subset hz))
    -- the first page is the last one to be given back
    have hall := serve_all hf.world hf.directory hrest hapart hlater hmrest
    have hgiven := hall.world.unmapAll hall.directory (fun v hv => hrest v (List.mem_reverse.mp hv))
      (List.pairwise_reverse.mpr (hapart.imp Ne.symm)) fun v hv => hmrest v (List.mem_reverse.mp hv)
    rw [List.reverse_cons, unmapAll_append]
    generalize unmapAll pd (addrs rs).reverse s' = s₃ at hback hgiven ⊢
    have hg := hgiven.world.giveBack hgiven.directory hr ((hback.maps r.vaddr hr).trans hf.page)
    refine ⟨fun u hu => ?_, ?_⟩
    · by_cases he : u / frameSize = r.vaddr / frameSize
      · rw [frameAt_same_page he, frameAt_same_page (s := s) he, hnone]
        exact hg.page.trans (if_neg hne)
      · exact ((hg.kept u hu he).trans (hback.maps u hu)).trans (hf.kept u hu he)
    · refine hg.frames.trans ?_
      rw [if_neg hne, hback.frames, hfree, Set.insert_sdiff_singleton]
      exact Set.insert_eq_of_mem hleast.1

/-- Pages that were there before, and frame 0, are not given back as they were. -/
theorem undone_only (hw : World s) (hpd : pd ∈ s.directories) (hlt : ∀ v ∈ addrs rs, v < wordSize)
    (hapart : (addrs rs).Pairwise fun u v => u / frameSize ≠ v / frameSize)
    (hs : serve pd rs s = some s') (hm : ∀ v ∈ addrs rs, Maps s' pd v)
    (hsame : SameIn s (unmapAll pd (addrs rs).reverse s') pd) :
    (∀ v ∈ addrs rs, frameAt s pd v = none) ∧ (rs = [] ∨ 0 ∉ freeFrames s.frames) := by
  have hall := serve_all hw hpd hlt hapart hs hm
  have hback := hall.world.unmapAll hall.directory (fun v hv => hlt v (List.mem_reverse.mp hv))
    (List.pairwise_reverse.mpr (hapart.imp Ne.symm)) fun v hv => hm v (List.mem_reverse.mp hv)
  have hzero := hback.zero
  rw [hsame.frames] at hzero
  have hnone : ∀ v ∈ addrs rs, frameAt s pd v = none := by
    intro v hv
    obtain ⟨f, hf, hcase⟩ := hall.pages v hv
    have hafter := hback.pages v (List.mem_reverse.mpr hv) f hf
    rw [hsame.maps v (hlt v hv)] at hafter
    rcases hcase with ⟨hbefore, hne⟩ | ⟨-, hfree, hgone⟩
    · rw [if_neg hne, hbefore] at hafter
      cases hafter
    · by_cases hz : f = 0
      · rw [hz] at hfree hgone
        exact absurd (hzero.mp hfree) hgone
      · exact hafter.trans (if_neg hz)
  refine ⟨hnone, ?_⟩
  cases rs with
  | nil => exact .inl rfl
  | cons r rs =>
    refine .inr fun h0 => ?_
    have hr := hlt r.vaddr List.mem_cons_self
    obtain ⟨f, s₂, hf, hlater⟩ := serve_first hw hpd hr hs (hm r.vaddr List.mem_cons_self)
    rcases hf.frames with ⟨hbefore, -⟩ | ⟨-, hleast, hfree⟩
    · rw [hnone r.vaddr List.mem_cons_self] at hbefore
      cases hbefore
    · obtain rfl : f = 0 := Nat.le_zero.mp (hleast.2 h0)
      have hrest := serve_all hf.world hf.directory (fun v hv => hlt v (List.mem_cons_of_mem r.vaddr hv))
        (List.pairwise_cons.mp hapart).2 hlater fun v hv => hm v (List.mem_cons_of_mem r.vaddr hv)
      have hstill : 0 ∈ freeFrames s.frames \ {0} := hfree ▸ hrest.frames (hzero.mp h0)
      exact hstill.2 rfl

theorem first_undone_iff (hw : World s) (hpd : pd ∈ s.directories)
    (hlt : ∀ v ∈ addrs (r :: rs), v < wordSize)
    (hapart : (addrs (r :: rs)).Pairwise fun u v => u / frameSize ≠ v / frameSize)
    (hs : serve pd (r :: rs) s = some s') (hm : ∀ v ∈ addrs (r :: rs), Maps s' pd v) :
    SameIn s (unmapAll pd (addrs rs).reverse s') pd ↔
      (∃ p ≠ 0, frameAt s pd r.vaddr = some p) ∧
      (∀ v ∈ addrs rs, frameAt s pd v = none) ∧ (rs = [] ∨ 0 ∉ freeFrames s.frames) := by
  rw [addrs_cons] at *
  obtain ⟨hhead, hapart⟩ := List.pairwise_cons.mp hapart
  have hr := hlt r.vaddr List.mem_cons_self
  have hrest := fun v hv => hlt v (List.mem_cons_of_mem r.vaddr hv)
  have hmrest := fun v hv => hm v (List.mem_cons_of_mem r.vaddr hv)
  obtain ⟨f, s₁, hf, hlater⟩ := serve_first hw hpd hr hs (hm r.vaddr List.mem_cons_self)
  have hother : ∀ v ∈ addrs rs, frameAt s₁ pd v = frameAt s pd v :=
    fun v hv => hf.kept v (hrest v hv) fun he => hhead v hv he.symm
  constructor
  · intro hsame
    have hall := serve_all hf.world hf.directory hrest hapart hlater hmrest
    have hback := hall.world.unmapAll hall.directory (fun v hv => hrest v (List.mem_reverse.mp hv))
      (List.pairwise_reverse.mpr (hapart.imp Ne.symm)) fun v hv => hmrest v (List.mem_reverse.mp hv)
    have hfirst : frameAt s pd r.vaddr = some f := by
      rw [← hsame.maps _ hr, hback.kept _ hr fun v hv => hhead v (List.mem_reverse.mp hv),
        hall.kept _ hr hhead]
      exact hf.page
    have hne : f ≠ 0 := by
      rintro rfl
      rcases hf.frames with ⟨-, hne, -⟩ | ⟨-, hleast, hfree⟩
      · exact hne rfl
      · have hzero := hback.zero
        rw [hsame.frames] at hzero
        have hstill : 0 ∈ freeFrames s.frames \ {0} := hfree ▸ hall.frames (hzero.mp hleast.1)
        exact hstill.2 rfl
    have hkept := hf.same hfirst hne
    obtain ⟨hnone, hzero⟩ := undone_only hf.world hf.directory hrest hapart hlater hmrest
      (hkept.symm.trans hsame)
    refine ⟨⟨f, hne, hfirst⟩, fun v hv => (hother v hv).symm.trans (hnone v hv), ?_⟩
    rwa [hkept.frames] at hzero
  · rintro ⟨⟨p, hne, hp⟩, hnone, hzero⟩
    have hkept := hf.same hp hne
    rcases hzero with rfl | hzero
    · cases hlater
      exact hkept
    · rw [← hkept.frames] at hzero
      exact hkept.trans (undone hf.world hf.directory hrest hapart hlater hmrest
        (fun v hv => (hother v hv).trans (hnone v hv)) hzero)

end

-- ---------------------------------------------------------------------------
-- `expand_heap`, then `reduce_heap`
-- ---------------------------------------------------------------------------

/-- `reduce_heap` by the same size restores the end, what is mapped, and the free frames. -/
def Undone (size : Nat) (heap : Heap) (s : VmState) (heap' : Heap) (s' : VmState) : Prop :=
  let r := reduceHeap size heap' s'
  r.2.1.endAddr = heap.endAddr ∧ SameMap s r.2.2

/-- Nothing was asked for; or the page at the end was there before, with a frame other
than 0, none of those behind it was, and frame 0 was not to be had for them. -/
def LeavesNoTrace (size : Nat) (heap : Heap) (s : VmState) : Prop :=
  size = 0 ∨
    (∃ p ≠ 0, frameAt s s.kernelPd heap.endAddr = some p) ∧
    (∀ v, heap.endAddr + pageSize ≤ v → v < heap.endAddr + size → frameAt s s.kernelPd v = none) ∧
    (size = pageSize ∨ 0 ∉ freeFrames s.frames)

section
variable {size k : Nat} {heap heap' : Heap} {s s' : VmState}
variable (hw : World s) (hend : pageSize ∣ heap.endAddr)

theorem Expanded.accepted (h : Expanded size heap s heap' s') : ¬ PastLimit size heap := by
  intro hp
  obtain ⟨total, hne, hg⟩ := h.returns
  rw [growHeap_refused hp] at hg
  cases hg
  exact hne rfl

theorem Expanded.served (h : Expanded size heap s heap' s') :
    heap' = { heap with endAddr := heap.endAddr + size } ∧ heap.endAddr + size < wordSize ∧
      servePages (expansion size heap s).pages s = some s' := by
  obtain ⟨total, hne, hg⟩ := h.returns
  rw [growHeap_accepted h.accepted] at hg
  obtain ⟨s'', hs, he⟩ := Option.map_eq_some_iff.mp hg
  obtain ⟨-, rfl, rfl⟩ : _ = total ∧ _ = heap' ∧ s'' = s' := by
    simpa only [Prod.mk.injEq] using he
  have hgrown : roundUp (heap.endAddr + size) % wordSize = heap.endAddr + size := h.grown
  refine ⟨by rw [hgrown], ?_, hs⟩
  rw [← hgrown]
  exact Nat.mod_lt _ (by decide)

include hend in
theorem expansion_addrs (ha : ¬ PastLimit ((k + 1) * pageSize) heap)
    (hfit : heap.endAddr + (k + 1) * pageSize < wordSize) :
    addrs (expansion ((k + 1) * pageSize) heap s).pages =
      heap.endAddr :: pagesBehind heap.endAddr k := by
  have hnew : roundUp (heap.endAddr + (k + 1) * pageSize) % wordSize =
      heap.endAddr + (k + 1) * pageSize := by
    rw [Vm.roundUp_of_dvd ((Nat.dvd_add_right hend).mpr (Nat.dvd_mul_left _ _)),
      Nat.mod_eq_of_lt hfit]
  have hcount : (heap.endAddr + (k + 1) * pageSize - heap.endAddr) / pageSize = k + 1 := by
    rw [Nat.add_sub_cancel_left]
    exact Nat.mul_div_cancel _ (by decide)
  rw [expansion_accepted ha, hnew, addrs,
    Vm.mapPages_eq hfit (Nat.le_add_right _ _) (by simp only [wordSize, pageSize] at *; omega) hend
      ((Nat.dvd_add_right hend).mpr (Nat.dvd_mul_left _ _)), hcount, List.map_map,
    List.range_succ_eq_map, List.map_cons, List.map_map]
  simp only [Function.comp_def, Nat.zero_mul, Nat.add_zero]
  rfl

include hend in
/-- The pages behind the first new one are given back, from the last one down. -/
theorem reduceHeap_expanded (hroom : heap.startAddr + heapMinSize ≤ heap.endAddr)
    (ha : ¬ PastLimit ((k + 1) * pageSize) heap)
    (hfit : heap.endAddr + (k + 1) * pageSize < wordSize) :
    (reduceHeap ((k + 1) * pageSize) { heap with endAddr := heap.endAddr + (k + 1) * pageSize } s).2 =
      (heap, unmapAll s.kernelPd (pagesBehind heap.endAddr k).reverse s) := by
  have hlt : heap.endAddr < wordSize := (Nat.le_add_right _ _).trans_lt hfit
  have hsub : sub32 (heap.endAddr + (k + 1) * pageSize) ((k + 1) * pageSize) = heap.endAddr := by
    rw [sub32_eq (Nat.le_add_left _ _) hfit, Nat.add_sub_cancel]
  have halign : align heap.endAddr pageSize = heap.endAddr := by
    conv_lhs => rw [← Nat.mod_eq_of_lt hlt]
    rw [Vm.align_mod, Vm.roundUp_of_dvd hend, Nat.mod_eq_of_lt hlt]
  have hne : heap.endAddr ≠ heap.endAddr + (k + 1) * pageSize := by
    simp only [pageSize]
    omega
  have hmin : ¬ sub32 heap.endAddr heap.startAddr < heapMinSize := by
    rw [sub32_eq ((Nat.le_add_right _ _).trans hroom) hlt]
    omega
  have hlimit : ¬ heap.endAddr > add32 heap.startAddr heap.maxSize := by
    rw [PastLimit, Vm.roundUp_of_dvd ((Nat.dvd_add_right hend).mpr (Nat.dvd_mul_left _ _)),
      Nat.mod_eq_of_lt hfit] at ha
    omega
  have htemp : sub32 (heap.endAddr + (k + 1) * pageSize) pageSize = heap.endAddr + k * pageSize := by
    rw [Nat.succ_mul] at *
    rw [sub32_eq (by omega) hfit]
    omega
  have hloop : unmapPages heap.endAddr (wordSize / pageSize)
      (sub32 (heap.endAddr + (k + 1) * pageSize) pageSize) s =
        unmapAll s.kernelPd (pagesBehind heap.endAddr k).reverse s := by
    rw [htemp]
    refine unmapPages_eq k _ ?_ ?_ s
    · simp only [pageSize, wordSize] at *
      omega
    · rw [Nat.succ_mul] at hfit
      omega
  rw [reduceHeap]
  dsimp only
  rw [hsub, halign, if_neg hne, if_neg hmin, if_neg hlimit, hloop]

include hend in
theorem Expanded.zero (h : Expanded 0 heap s heap' s') : heap' = heap ∧ s' = s := by
  obtain ⟨rfl, hfit, hs⟩ := h.served
  rw [Nat.add_zero] at hfit
  rw [expansion_accepted h.accepted, Nat.add_zero, Vm.roundUp_of_dvd hend, Nat.mod_eq_of_lt hfit,
    Vm.mapPages_nil le_rfl] at hs
  exact ⟨rfl, (Option.some.inj hs).symm⟩

theorem mem_pagesBehind_page {v a : Nat} (ha : pageSize ∣ a) (hlo : a + pageSize ≤ v)
    (hhi : v < a + (k + 1) * pageSize) : v / frameSize * frameSize ∈ pagesBehind a k := by
  obtain ⟨n, rfl⟩ := ha
  refine mem_pagesBehind.mpr ⟨v / frameSize - n - 1, ?_, ?_⟩
  · simp only [frameSize, pageSize] at *
    omega
  · simp only [frameSize, pageSize] at *
    omega

include hw hend in
/-- The expansion leaves no trace if and only if the first of its pages was there before. -/
theorem undone_iff (hroom : heap.startAddr + heapMinSize ≤ heap.endAddr)
    (hk : pageSize ∣ size) (h : Expanded size heap s heap' s') :
    Undone size heap s heap' s' ↔ LeavesNoTrace size heap s := by
  obtain ⟨n, rfl⟩ := hk
  cases n with
  | zero =>
    obtain ⟨rfl, rfl⟩ := h.zero hend
    obtain ⟨-, hfit, -⟩ := h.served
    have hcall := reduceHeap_givesUp (s := s') hend hfit (show pageSize * 0 < wordSize by decide)
      (.inl (by decide))
    rw [Undone, hcall]
    exact iff_of_true ⟨rfl, (sameMap_iff rfl).mpr (.refl s')⟩ (.inl rfl)
  | succ k =>
    rw [Nat.mul_comm] at *
    obtain ⟨rfl, hfit, hs⟩ := h.served
    have hcall := reduceHeap_expanded (s := s') hend hroom h.accepted hfit
    have haddrs := expansion_addrs (s := s) hend h.accepted hfit
    have hin : ∀ v ∈ heap.endAddr :: pagesBehind heap.endAddr k,
        heap.endAddr ≤ v ∧ v < heap.endAddr + (k + 1) * pageSize := by
      intro v hv
      rcases List.mem_cons.mp hv with rfl | hv
      · simp only [pageSize]
        omega
      · obtain ⟨i, hi, rfl⟩ := mem_pagesBehind.mp hv
        simp only [pageSize]
        omega
    have hapart : (heap.endAddr :: pagesBehind heap.endAddr k).Pairwise
        fun u v => u / frameSize ≠ v / frameSize := by
      refine List.pairwise_cons.mpr ⟨fun v hv => ?_, pagesBehind_apart _ k⟩
      obtain ⟨i, -, rfl⟩ := mem_pagesBehind.mp hv
      simp only [frameSize, pageSize]
      omega
    have hkernel := servePages_kernelPd hs
    rw [servePages_eq] at hs
    generalize (expansion ((k + 1) * pageSize) heap s).pages = reqs at hs haddrs
    cases reqs with
    | nil => cases haddrs
    | cons r rs =>
      have hfirst := first_undone_iff hw hw.kernelDirectory
        (fun v hv => (hin v (haddrs ▸ hv)).2.trans hfit) (haddrs ▸ hapart) hs
        (fun v hv => hkernel ▸ h.mapped v (hin v (haddrs ▸ hv)).1 (hin v (haddrs ▸ hv)).2)
      obtain ⟨hr, hrs⟩ : r.vaddr = heap.endAddr ∧ addrs rs = pagesBehind heap.endAddr k :=
        List.cons.inj haddrs
      have hnil : rs = [] ↔ (k + 1) * pageSize = pageSize := by
        have hlength : rs.length = k := by
          rw [← List.length_map PageRequest.vaddr, show rs.map _ = _ from hrs, pagesBehind,
            List.length_map, List.length_range]
        rw [← List.length_eq_zero_iff, hlength]
        simp only [pageSize]
        omega
      rw [hr, hrs, hnil, ← sameMap_iff ((unmapAll_kept _ s').kernelPd.trans hkernel)] at hfirst
      rw [Undone, hcall, hkernel]
      refine (and_iff_right rfl).trans (hfirst.trans ?_)
      rw [LeavesNoTrace, or_iff_right (Nat.mul_ne_zero k.succ_ne_zero (by decide))]
      refine and_congr_right fun _ => and_congr_left fun _ => ⟨fun hnone v hlo hhi => ?_,
        fun hnone v hv => ?_⟩
      · rw [frameAt_same_page (w := v / frameSize * frameSize) (by simp only [frameSize]; omega)]
        exact hnone _ (mem_pagesBehind_page hend hlo hhi)
      · refine hnone v ?_ (hin v (List.mem_cons_of_mem _ hv)).2
        obtain ⟨i, -, rfl⟩ := mem_pagesBehind.mp hv
        simp only [pageSize]
        omega

include hw hend in
/-- `reduce_heap` does what it should only where it gives up, and takes an expansion back
only if the first page was there before. -/
theorem shrink_undoes_iff (hlt : heap.endAddr < wordSize) (hsize : size < wordSize)
    (hmapped : ∀ v, heap.startAddr ≤ v → v < heap.endAddr → KernelMaps s v) :
    (ReducesRight size heap s ↔ GivesUp size heap) ∧
    ∀ heap' s', heap.startAddr + heapMinSize ≤ heap.endAddr → pageSize ∣ size →
      Expanded size heap s heap' s' →
      (Undone size heap s heap' s' ↔ LeavesNoTrace size heap s) :=
  ⟨reduces_right_iff hend hlt hsize hw hmapped,
    fun _ _ hroom hk h => undone_iff hw hend hroom hk h⟩

end

/-- The pages of `kheap` but the last two, which are mapped as well. -/
def roomyHeap : Heap := ⟨.nil, 0xC0000000, 0xC00FE000, 0x200000, false, false⟩

theorem SmallBoot.roomyHeap_expanded {k : Vm.KHeap.KState} {first p : Nat} {s : VmState}
    (hb : SmallBoot k first p s) : ∃ s',
      Expanded 0x2000 roomyHeap s { roomyHeap with endAddr := 0xC0100000 } s' := by
  have hw := hb.boots.world
  have htable : (s.pageDirectories s.kernelPd).tables (pdIndex 0xC00FE000) ≠ 0 := hb.heapTable
  have htable' : (s.pageDirectories s.kernelPd).tables (pdIndex 0xC00FF000) ≠ 0 := hb.heapTable
  have haccepted : ¬ PastLimit 0x2000 roomyHeap := by decide +kernel
  have hnew : roundUp (roomyHeap.endAddr + 0x2000) % wordSize = 0xC0100000 := by decide +kernel
  have htotal : sub32 0xC0100000 roomyHeap.startAddr = 0x100000 := by decide +kernel
  have hpages : (expansion 0x2000 roomyHeap s).pages =
      [⟨0xC00FE000, false, true⟩, ⟨0xC00FF000, false, true⟩] := by
    rw [expansion_accepted haccepted, hnew, Vm.mapPages_eq (by decide) (by decide) (by decide)
      (by decide) (by decide)]
    rfl
  have hserved : (∃ s', servePages (expansion 0x2000 roomyHeap s).pages s = some s' ∧
      ∀ r ∈ (expansion 0x2000 roomyHeap s).pages, KernelMaps s' r.vaddr) := by
    refine (kernelServed_iff hw ?_ fun r hr => ?_).mpr ?_
    · rw [hpages]
      exact (show 2 ≤ 30000 by decide).trans hb.frames_left
    · rw [hpages, List.mem_pair] at hr
      rcases hr with rfl | rfl
      · decide
      · decide
    · rw [hpages]
      refine ⟨_, _, getPage_old htable, fun he => htable (congrArg Slot.table he), fun s₂ ha => ?_⟩
      obtain ⟨_, _, rfl⟩ := allocFrame_same ha
      exact ⟨_, _, getPage_old htable', fun he => htable' (congrArg Slot.table he), fun _ _ => trivial⟩
  rw [hpages] at hserved
  obtain ⟨s', hs', hall⟩ := hserved
  have hg : growHeap 0x2000 roomyHeap s =
      some (0x100000, { roomyHeap with endAddr := 0xC0100000 }, s') := by
    rw [growHeap_accepted haccepted, hpages, hs', Option.map_some, hnew, htotal]
  refine ⟨s', ⟨0x100000, by decide, hg⟩, by decide, fun v hlo hhi => ?_⟩
  rcases Nat.lt_or_ge v 0xC00FF000 with hv | hv
  · rw [KernelMaps, frameAt_same_page (w := 0xC00FE000) (by simp only [roomyHeap, frameSize] at *; omega)]
    exact hall ⟨0xC00FE000, false, true⟩ List.mem_cons_self
  · rw [KernelMaps, frameAt_same_page (w := 0xC00FF000) (by simp only [frameSize] at *; omega)]
    exact hall ⟨0xC00FF000, false, true⟩ (List.mem_cons_of_mem _ List.mem_cons_self)

/-- Two pages that were there before. -/
theorem shrink_undoes_small : ∃ s heap' s', Boots 0x8000 0x1F0000 unbooted s ∧
    ReducesRight 0xFFF roomyHeap s ∧ Expanded 0x2000 roomyHeap s heap' s' ∧
    ¬ Undone 0x2000 roomyHeap s heap' s' := by
  obtain ⟨k₁, _, _, _, h1, -⟩ := firstHeap_grows
  obtain ⟨first, p, s, hb⟩ := smallBoot h1
  have hw := hb.boots.world
  obtain ⟨s', hexpanded⟩ := hb.roomyHeap_expanded
  have hmapped : ∀ v, roomyHeap.startAddr ≤ v → v < roomyHeap.endAddr → KernelMaps s v :=
    fun v hlo hhi => hb.kheap_mapped hw.kernelDirectory hlo (hhi.trans (by decide))
  have hpart := shrink_undoes_iff hw (by decide) (by decide) (show 0xFFF < wordSize by decide) hmapped
  have hwhole := shrink_undoes_iff hw (by decide) (by decide) (show 0x2000 < wordSize by decide) hmapped
  refine ⟨s, _, s', hb.boots, hpart.1.mpr (.inl (by decide)), hexpanded, fun hundone => ?_⟩
  rcases (hwhole.2 _ s' (by decide) (by decide) hexpanded).mp hundone with h0 | ⟨-, hnone, -⟩
  · exact absurd h0 (by decide)
  · have hthere : KernelMaps s 0xC00FF000 := hb.kheap_mapped hw.kernelDirectory (by decide) (by decide)
    rw [KernelMaps, hnone 0xC00FF000 (by decide) (by decide)] at hthere
    cases hthere

/-- Nothing is unmapped when the last page is given back. -/
theorem shrink_keeps_page : ¬ ∀ (size : Nat) (heap : Heap) (s : VmState), World s →
    pageSize ∣ heap.startAddr → pageSize ∣ heap.endAddr → heap.startAddr ≤ heap.endAddr →
    heap.endAddr < wordSize → size < wordSize →
    (∀ v, heap.startAddr ≤ v → v < heap.endAddr → KernelMaps s v) → ReducesRight size heap s := by
  intro hall
  obtain ⟨k₁, _, _, _, h1, -⟩ := firstHeap_grows
  obtain ⟨first, p, s, hb⟩ := smallBoot h1
  have hw := hb.boots.world
  have hmapped : ∀ v, roomyHeap.startAddr ≤ v → v < roomyHeap.endAddr → KernelMaps s v :=
    fun v hlo hhi => hb.kheap_mapped hw.kernelDirectory hlo (hhi.trans (by decide))
  have hright := hall 0x1000 roomyHeap s hw (by decide) (by decide) (by decide) (by decide) (by decide)
    hmapped
  have hgives := (reduces_right_iff (by decide) (by decide) (by decide) hw hmapped).mp hright
  exact absurd hgives (by rw [GivesUp]; decide +kernel)

end Shigure.Paging
