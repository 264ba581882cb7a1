import Shigure.Paging.Recursion
import Shigure.Paging.TableLaws
import Shigure.Vm.HeapRuns

/-!
# When growing the kernel heap ends

While the first page behind the end of the heap has no page table, growing the
heap for this very table begins with the same page; the same holds for the
second page once the first is mapped. In these two cases, with no room for a
table in the free tree, the recursion does not end. In all others it is at most
two calls deep: a later page asks for its table when the two pages that the
table needs are mapped already.
-/

namespace Shigure.Paging

open Vm (HeapState PageRequest WellFormed Good PastLimit Heap growth roundUp headerSize pageSize
  wanted)

section
variable {s s' s₁ : GrowState} {hs hs' : HeapState} {heap : Heap} {vm vm' : VmState}
  {live : List Span} {page : Slot} {pageAlign kernel writable : Bool} {paddr : BitVec 32}
  {node size n p v w fuel newEnd : Nat}
  {expand : Nat → GrowState → Run (Nat × GrowState)}
  {getPage : Nat → GrowState → Run (Slot × GrowState)}
  {alloc : Bool → Nat → GrowState → Run (Nat × GrowState)}

-- ---------------------------------------------------------------------------
-- One call
-- ---------------------------------------------------------------------------

def grown (allocAddr size : Nat) (r : Nat × GrowState) : Nat × GrowState :=
  if r.1 = 0 then (0, r.2)
  else (add32 allocAddr headerSize, { r.2 with hs := r.2.hs.storeHeader allocAddr size })

/-- Where the header of a block behind the end goes. -/
def headerSpot (pageAlign : Bool) (heap : Heap) : Nat :=
  if pageAlign then Vm.alignHeader heap.endAddr else heap.endAddr

theorem heapAllocWith_grow (hw : WellFormed s.hs live)
    (hnone : Avl.findBestFit (wanted pageAlign size) s.hs.heap.root = none) :
    heapAllocWith node expand pageAlign size s =
      expand (growth pageAlign size % wordSize) s >>= fun r =>
        pure (grown (headerSpot pageAlign s.hs.heap) size r) := by
  simp only [heapAllocWith, hnone, Vm.growth_sum hw pageAlign size, grown]
  refine bind_congr fun r => ?_
  split <;> rfl

theorem expandHeapWith_refused (h : PastLimit n s.hs.heap) :
    expandHeapWith getPage (n % wordSize) s = .ended (some (0, s)) := by
  simp only [expandHeapWith, Vm.add32_mod, Vm.align_add32]
  exact if_pos h

theorem expandHeapWith_accepted (h : ¬ PastLimit n s.hs.heap) :
    expandHeapWith getPage (n % wordSize) s =
      mapPagesWith getPage (Vm.mapPages s.hs.heap (roundUp (s.hs.heap.endAddr + n) % wordSize)
        (wordSize / pageSize) s.hs.heap.endAddr) s >>= fun s' =>
      pure (sub32 (roundUp (s.hs.heap.endAddr + n) % wordSize) s.hs.heap.startAddr,
        s'.setEnd (roundUp (s.hs.heap.endAddr + n) % wordSize)) := by
  simp only [expandHeapWith, Vm.add32_mod, Vm.align_add32]
  exact if_neg h

theorem mapPages_succ (h : v < newEnd) (hnext : v + pageSize < wordSize) :
    Vm.mapPages heap newEnd (fuel + 1) v =
      ⟨v, heap.supervisor, !heap.readonly⟩ :: Vm.mapPages heap newEnd fuel (v + pageSize) := by
  rw [Vm.mapPages, if_pos h, add32_eq hnext]

theorem mapPagesWith_cons (r : PageRequest) (rs : List PageRequest) :
    mapPagesWith getPage (r :: rs) s = getPage r.vaddr s >>= fun x =>
      .ended (allocFrame x.1 r.kernel r.writable x.2.vm) >>= fun vm =>
        mapPagesWith getPage rs { x.2 with vm := vm } := rfl

theorem getPageOver_old (h : ¬ s.Missing v) :
    getPageOver alloc v s = .ended (some (findPage v s.vm.kernelPd s.vm, s)) := if_neg h

def tableMade (v : Nat) (r : Nat × GrowState) : Slot × GrowState :=
  if r.1 = 0 then (.null, r.2)
  else (⟨r.1, ptIndex v⟩, r.2.addTable v r.1 (kernelPhys r.1 r.2.vm))

theorem getPageOver_new (h : s.Missing v) :
    getPageOver alloc v s = alloc true pageTableSize s >>= fun r => pure (tableMade v r) := by
  have hover : getPageOver alloc v s = _ := if_pos h
  rw [hover, ikmallocWith]
  cases alloc true pageTableSize s with
  | outOfFuel => rfl
  | ended o =>
    cases o with
    | none => rfl
    | some r =>
      simp only [Run.some_bind, Run.pure_eq, tableMade]
      split <;> rfl

theorem heapAllocWith_fit (h : Avl.findBestFit (wanted pageAlign size) s.hs.heap.root ≠ none) :
    heapAllocWith node expand pageAlign size s =
      .ended ((Vm.heapAlloc node pageAlign size s.hs).map fun r => (r.1, { s with hs := r.2 })) := by
  rw [heapAllocWith]
  split
  · exact absurd ‹_› h
  · rfl

-- ---------------------------------------------------------------------------
-- Tables
-- ---------------------------------------------------------------------------

theorem missing_congr (h : pdIndex w = pdIndex v) : s.Missing w ↔ s.Missing v := by
  rw [GrowState.Missing, GrowState.Missing, h]

theorem missing_addTable (hp : p ≠ 0) :
    (s.addTable v p paddr).Missing w ↔ pdIndex w ≠ pdIndex v ∧ s.Missing w := by
  simp only [GrowState.Missing, GrowState.addTable, VmState.setPde, VmState.setDirectory,
    VmState.setTable, if_true]
  split
  · rename_i he
    exact iff_of_false hp fun h => h.1 he
  · rename_i he
    exact (and_iff_right he).symm

theorem missing_allocFrame (h : allocFrame page kernel writable s.vm = some vm) :
    GrowState.Missing { s with vm := vm } w ↔ s.Missing w := by
  obtain ⟨_, _, rfl⟩ := allocFrame_same h
  exact Iff.rfl

theorem pdIndex_same (hv : pageSize ∣ v) (hle : v ≤ w) (hlt : w < v + pageSize) :
    pdIndex w = pdIndex v := by
  obtain ⟨k, rfl⟩ := hv
  simp only [pdIndex, Nat.shiftRight_eq_div_pow, pageSize] at *
  omega

/-- Behind a page with another table, a table begins. -/
theorem pdIndex_next (hv : pageSize ∣ v) (hlow : pageSize ≤ v)
    (hne : pdIndex (v - pageSize) ≠ pdIndex v) : pdIndex (v + pageSize) = pdIndex v := by
  obtain ⟨k, rfl⟩ := hv
  simp only [pdIndex, Nat.shiftRight_eq_div_pow, pageSize] at *
  omega

-- ---------------------------------------------------------------------------
-- The memory for a table
-- ---------------------------------------------------------------------------

/-- The heap is in order, its limit is where it was, and its end is `e`. -/
structure HeapAtEnd (S M e : Nat) (hs : HeapState) : Prop where
  wellFormed : WellFormed hs []
  startAddr : hs.heap.startAddr = S
  maxSize : hs.heap.maxSize = M
  endAddr : hs.heap.endAddr = e

theorem heapAtEnd (hw : WellFormed hs live) :
    HeapAtEnd hs.heap.startAddr hs.heap.maxSize hs.heap.endAddr hs :=
  ⟨⟨hw.low, hw.high, hw.startPage, hw.endPage,
    hw.tiling.thin hw.tiling.sorted (List.Subset.refl _) (List.nil_sublist _), hw.nodup⟩, rfl, rfl, rfl⟩

variable {S M e : Nat}

theorem HeapAtEnd.cut (h : HeapAtEnd S M e hs)
    (hfit : Avl.findBestFit (wanted true pageTableSize) hs.heap.root ≠ none)
    (hm : Vm.heapAlloc node true pageTableSize hs = some (p, hs')) :
    p ≠ 0 ∧ HeapAtEnd S M e hs' := by
  have hw := h.wellFormed
  have hgood : Good hs [] := ⟨hw.low, hw.high, hw.tiling, hw.nodup, by simp⟩
  have hnw : Vm.NoWrap true pageTableSize hs := ⟨by decide, fun hnone => absurd hnone hfit⟩
  obtain ⟨best, hbest⟩ := Option.ne_none_iff_exists'.mp hfit
  obtain ⟨placed, rfl, hx⟩ := Vm.heapAlloc_found hw.tiling hw.nodup hw.high hnw hbest hm
  have hcut := hgood.cut hx
  refine ⟨by simp [headerSize], ⟨hcut.low, hcut.high, ?_, ?_, ?_, hcut.nodup⟩, ?_, ?_, ?_⟩
  · rw [hx.startAddr]
    exact hw.startPage
  · rw [hx.endAddr]
    exact hw.endPage
  · exact hcut.tiling.thin hcut.tiling.sorted (List.Subset.refl _) (List.nil_sublist _)
  · exact hx.startAddr.trans h.startAddr
  · exact hx.maxSize.trans h.maxSize
  · exact hx.endAddr.trans h.endAddr

theorem HeapAtEnd.grow (h : HeapAtEnd S M e hs) (hle : e ≤ newEnd) (hlt : newEnd < wordSize)
    (hpage : pageSize ∣ newEnd) (addr size : Nat) :
    HeapAtEnd S M newEnd
      (HeapState.storeHeader { hs with heap := { hs.heap with endAddr := newEnd } } addr size) := by
  have hw := h.wellFormed
  have hend := h.endAddr
  have hlow : hs.heap.startAddr ≤ newEnd := hw.low.trans (hend.le.trans hle)
  have hin : Span.Within ⟨e, newEnd - e⟩ hs.heap.endAddr newEnd := by
    simp only [Span.Within, Span.stop]
    omega
  have ht := hw.tiling.grow hw.low hin
  exact ⟨⟨hlow, hlt, hw.startPage, hpage,
    ht.thin ht.sorted (List.Subset.refl _) (List.nil_sublist _), hw.nodup⟩, h.startAddr, h.maxSize,
    rfl⟩

theorem growth_table : growth true pageTableSize = 2 * pageSize := rfl

theorem HeapAtEnd.roundUp_table (h : HeapAtEnd S M e hs) :
    roundUp (e + growth true pageTableSize) = e + 2 * pageSize := by
  have hpage := h.wellFormed.endPage
  rw [h.endAddr] at hpage
  rw [growth_table]
  exact Vm.roundUp_of_dvd ((Nat.dvd_add_right hpage).mpr (Nat.dvd_mul_left _ _))

theorem HeapAtEnd.pastLimit_table (h : HeapAtEnd S M e s.hs) (hlt : e + 2 * pageSize < wordSize) :
    PastLimit (growth true pageTableSize) s.hs.heap ↔ add32 S M < e + 2 * pageSize := by
  rw [PastLimit, h.startAddr, h.maxSize, h.endAddr, h.roundUp_table, Nat.mod_eq_of_lt hlt]

/-- Growing for a table maps two pages. -/
theorem HeapAtEnd.mapPages_table (h : HeapAtEnd S M e hs) (hlt : e + 2 * pageSize < wordSize) :
    Vm.mapPages hs.heap (roundUp (e + growth true pageTableSize) % wordSize) (wordSize / pageSize) e =
      [⟨e, hs.heap.supervisor, !hs.heap.readonly⟩,
        ⟨e + pageSize, hs.heap.supervisor, !hs.heap.readonly⟩] := by
  have hfuel : wordSize / pageSize = 1048573 + 1 + 1 + 1 := by decide
  have hpos : 0 < pageSize := by decide
  have hstop : ¬ e + pageSize + pageSize < e + 2 * pageSize := by omega
  rw [h.roundUp_table, Nat.mod_eq_of_lt hlt, hfuel, mapPages_succ (by omega) (by omega),
    mapPages_succ (by omega) (by omega), Vm.mapPages, if_neg hstop]

def tableEnd (e : Nat) (s : GrowState) : GrowState :=
  let hs := (s.setEnd (e + 2 * pageSize)).hs
  { s with hs := hs.storeHeader (e + (pageSize - headerSize)) pageTableSize }

theorem growTable_eq (h : HeapAtEnd S M e s.hs)
    (hnone : Avl.findBestFit (wanted true pageTableSize) s.hs.heap.root = none)
    (hlt : e + 2 * pageSize < wordSize) (hlimit : e + 2 * pageSize ≤ add32 S M) :
    heapAllocWith node (expandHeapWith getPage) true pageTableSize s =
      mapPagesWith getPage [⟨e, s.hs.heap.supervisor, !s.hs.heap.readonly⟩,
        ⟨e + pageSize, s.hs.heap.supervisor, !s.hs.heap.readonly⟩] s >>= fun s' =>
      pure (e + pageSize, tableEnd e s') := by
  have hw := h.wellFormed
  have hlow := hw.low
  have hpage := hw.endPage
  rw [h.startAddr, h.endAddr] at hlow
  rw [h.endAddr] at hpage
  have hpast : ¬ PastLimit (growth true pageTableSize) s.hs.heap := by
    rw [h.pastLimit_table hlt]
    exact Nat.not_lt.mpr hlimit
  have hspot : headerSpot true s.hs.heap = e + (pageSize - headerSize) := by
    rw [headerSpot, if_pos rfl, h.endAddr]
    exact Vm.alignHeader_page hpage (by simp only [pageSize, wordSize] at *; omega)
  have htotal : sub32 (e + 2 * pageSize) S ≠ 0 := by
    rw [sub32_eq (by omega) hlt]
    simp only [pageSize]
    omega
  have hback : add32 (e + (pageSize - headerSize)) headerSize = e + pageSize := by
    rw [add32_eq (by simp only [pageSize, headerSize] at *; omega)]
    rfl
  rw [heapAllocWith_grow hw hnone, expandHeapWith_accepted hpast, h.endAddr, h.mapPages_table hlt,
    h.roundUp_table, Nat.mod_eq_of_lt hlt, h.startAddr, hspot]
  cases mapPagesWith getPage _ s with
  | outOfFuel => rfl
  | ended o =>
    cases o with
    | none => rfl
    | some s' =>
      simp only [Run.some_bind, Run.pure_eq, grown, if_neg htotal, hback]
      rfl

/-- The two pages that a table needs are mapped already: no further call is made. -/
theorem growTable_mapped (node : Nat) (alloc : Bool → Nat → GrowState → Run (Nat × GrowState))
    (h : HeapAtEnd S M e s.hs)
    (hnone : Avl.findBestFit (wanted true pageTableSize) s.hs.heap.root = none)
    (hlt : e + 2 * pageSize < wordSize) (hlimit : e + 2 * pageSize ≤ add32 S M)
    (h1 : ¬ s.Missing e) (h2 : ¬ s.Missing (e + pageSize)) :
    heapAllocWith node (expandHeapWith (getPageOver alloc)) true pageTableSize s = .ended none ∨
    ∃ s', heapAllocWith node (expandHeapWith (getPageOver alloc)) true pageTableSize s =
        .ended (some (e + pageSize, s')) ∧
      HeapAtEnd S M (e + 2 * pageSize) s'.hs ∧ ∀ w, s'.Missing w ↔ s.Missing w := by
  have hpage := h.wellFormed.endPage
  rw [h.endAddr] at hpage
  rw [growTable_eq h hnone hlt hlimit, mapPagesWith_cons, getPageOver_old h1, Run.some_bind]
  cases hf : allocFrame (findPage e s.vm.kernelPd s.vm) s.hs.heap.supervisor (!s.hs.heap.readonly)
    s.vm with
  | none => exact .inl rfl
  | some vm₁ =>
    have h2' : ¬ GrowState.Missing { s with vm := vm₁ } (e + pageSize) := by
      rwa [missing_allocFrame hf]
    rw [Run.some_bind, mapPagesWith_cons, getPageOver_old h2', Run.some_bind]
    cases hf' : allocFrame (findPage (e + pageSize) vm₁.kernelPd vm₁) s.hs.heap.supervisor
      (!s.hs.heap.readonly) vm₁ with
    | none => exact .inl rfl
    | some vm₂ =>
      refine .inr ⟨tableEnd e { s with vm := vm₂ }, rfl, ?_, fun w => ?_⟩
      · exact h.grow (Nat.le_add_right _ _) hlt
          ((Nat.dvd_add_right hpage).mpr (Nat.dvd_mul_left _ _)) _ _
      · obtain ⟨_, _, rfl⟩ := allocFrame_same hf'
        obtain ⟨_, _, rfl⟩ := allocFrame_same hf
        exact Iff.rfl

theorem growTable_ends (h : HeapAtEnd S M e s.hs)
    (hnone : Avl.findBestFit (wanted true pageTableSize) s.hs.heap.root = none)
    (hfull : ¬ (e + 2 * pageSize < wordSize ∧ e + 2 * pageSize ≤ add32 S M)) :
    (heapAllocWith node (expandHeapWith getPage) true pageTableSize s).Ends := by
  have hw := h.wellFormed
  have hle := hw.end_le
  rw [heapAllocWith_grow hw hnone]
  refine Run.Ends.bind ?_ fun _ _ => Run.ends_ended _
  by_cases hpast : PastLimit (growth true pageTableSize) s.hs.heap
  · rw [expandHeapWith_refused hpast]
    exact Run.ends_ended _
  · -- the new end has wrapped, and there is no page before it
    have hback : roundUp (s.hs.heap.endAddr + growth true pageTableSize) % wordSize ≤
        s.hs.heap.endAddr := by
      rw [h.endAddr] at hle ⊢
      have hwrap : wordSize ≤ e + 2 * pageSize := by
        by_contra hlt
        have hlt := Nat.not_le.mp hlt
        rw [h.pastLimit_table hlt] at hpast
        exact hfull ⟨hlt, Nat.not_lt.mp hpast⟩
      rw [h.roundUp_table]
      simp only [pageSize, wordSize] at *
      omega
    rw [expandHeapWith_accepted hpast, Vm.mapPages_nil hback]
    exact Run.ends_ended _

-- ---------------------------------------------------------------------------
-- The pages of the new part
-- ---------------------------------------------------------------------------

/-- The loop has come from `E` to `v`: all pages so far have their tables. The end of the heap
is where it was, or it has moved on to two pages with tables. -/
structure LoopAt (S M E v : Nat) (s : GrowState) : Prop where
  le : E ≤ v
  page : pageSize ∣ v
  mapped : ∀ w, E ≤ w → w < v → ¬ s.Missing w
  atEnd : HeapAtEnd S M E s.hs ∨ ∃ e, HeapAtEnd S M e s.hs ∧ E + 2 * pageSize ≤ e ∧
    e + pageSize ≤ v ∧ ¬ s.Missing e ∧ ¬ s.Missing (e + pageSize)

variable {E : Nat}

theorem loopAt_start (hw : WellFormed s.hs live) : LoopAt s.hs.heap.startAddr s.hs.heap.maxSize
    s.hs.heap.endAddr s.hs.heap.endAddr s :=
  ⟨le_rfl, hw.endPage, fun _ hlo hhi => absurd hlo (Nat.not_le.mpr hhi), .inl (heapAtEnd hw)⟩

theorem loopAt_next (h : LoopAt S M E v s)
    (hm : ∀ w, s'.Missing w → s.Missing w ∧ pdIndex w ≠ pdIndex v) (hlo : E ≤ w)
    (hhi : w < v + pageSize) : ¬ s'.Missing w := fun hmiss => by
  obtain ⟨hold, hne⟩ := hm w hmiss
  rcases Nat.lt_or_ge w v with hlt | hge
  · exact h.mapped w hlo hlt hold
  · exact hne (pdIndex_same h.page hge hhi)

theorem LoopAt.next (h : LoopAt S M E v s)
    (hm : ∀ w, s'.Missing w → s.Missing w ∧ pdIndex w ≠ pdIndex v)
    (hheap : ∀ e, HeapAtEnd S M e s.hs → HeapAtEnd S M e s'.hs) :
    LoopAt S M E (v + pageSize) s' := by
  refine ⟨h.le.trans (Nat.le_add_right _ _), (Nat.dvd_add_right h.page).mpr dvd_rfl,
    fun w hlo hhi => loopAt_next h hm hlo hhi, ?_⟩
  rcases h.atEnd with hat | ⟨e, hat, hfar, hle, h1, h2⟩
  · exact .inl (hheap E hat)
  · exact .inr ⟨e, hheap e hat, hfar, hle.trans (Nat.le_add_right _ _), fun hm1 => h1 (hm e hm1).1,
      fun hm2 => h2 (hm _ hm2).1⟩

theorem LoopAt.allocFrame (h : LoopAt S M E v s)
    (hf : Paging.allocFrame page kernel writable s.vm = some vm) :
    LoopAt S M E v { s with vm := vm } := by
  refine ⟨h.le, h.page, fun w hlo hhi => ?_, ?_⟩
  · rw [missing_allocFrame hf]
    exact h.mapped w hlo hhi
  · rcases h.atEnd with hat | ⟨e, hat, hfar, hle, h1, h2⟩
    · exact .inl hat
    · refine .inr ⟨e, hat, hfar, hle, ?_, ?_⟩
      · rwa [missing_allocFrame hf]
      · rwa [missing_allocFrame hf]

/-- The end of the heap has moved for the table of page `v`, past which the two pages of the
next table do not reach. -/
theorem LoopAt.moved (h : LoopAt S M E v s) (hmiss : s.Missing v)
    (hm : ∀ w, s'.Missing w → s.Missing w ∧ pdIndex w ≠ pdIndex v)
    (hat : HeapAtEnd S M (e + 2 * pageSize) s'.hs) (hE : E ≤ e) (hfar : e + 2 * pageSize ≤ v) :
    LoopAt S M E (v + pageSize) s' := by
  have hpos : 0 < pageSize := by decide
  have hnext : pdIndex (v + pageSize) = pdIndex v := by
    refine pdIndex_next h.page (by omega) fun hsame => ?_
    exact h.mapped (v - pageSize) (by omega) (by omega) ((missing_congr hsame).mpr hmiss)
  refine ⟨h.le.trans (Nat.le_add_right _ _), (Nat.dvd_add_right h.page).mpr dvd_rfl,
    fun w hlo hhi => loopAt_next h hm hlo hhi, .inr ⟨_, hat, by omega, by omega, ?_, ?_⟩⟩
  · exact loopAt_next h hm (by omega) (by omega)
  · rcases Nat.lt_or_ge (e + 2 * pageSize) v with hlt | hge
    · exact loopAt_next h hm (by omega) (by omega)
    · intro hmiss'
      refine (hm _ hmiss').2 ?_
      rw [show e + 2 * pageSize + pageSize = v + pageSize by omega]
      exact hnext

theorem heapAlloc_succ (n : Nat) : heapAlloc node (n + 1) pageAlign size s =
    heapAllocWith node (expandHeapWith (getPageOver (heapAlloc node n))) pageAlign size s := rfl

theorem missing_made (hmiss : ∀ w, s₁.Missing w ↔ s.Missing w) (hp : p ≠ 0)
    (h : tableMade v (p, s₁) = (page, s')) :
    (∀ w, s'.Missing w → s.Missing w ∧ pdIndex w ≠ pdIndex v) ∧ s'.hs = s₁.hs := by
  rw [tableMade, if_neg hp] at h
  cases h
  refine ⟨fun w hw => ?_, rfl⟩
  obtain ⟨hne, hold⟩ := (missing_addTable hp).mp hw
  exact ⟨(hmiss w).mp hold, hne⟩

/-- One page of the loop, unless it is one of the first two and its table has to come from
growth: `get_page` ends, and the next page finds the loop in order. -/
theorem LoopAt.step (h : LoopAt S M E v s) (hnew : newEnd < wordSize)
    (hlimit : newEnd ≤ add32 S M) (hpage : pageSize ∣ newEnd)
    (hsafe : HeapAtEnd S M E s.hs → AsksForTable s v → TableGrows s → E + 2 * pageSize ≤ v)
    (node n : Nat) : (getPageOver (heapAlloc node (n + 1)) v s).Ends ∧
      ∀ page s', getPageOver (heapAlloc node (n + 1)) v s = .ended (some (page, s')) →
        v + pageSize < newEnd → LoopAt S M E (v + pageSize) s' := by
  by_cases hmiss : s.Missing v
  · rw [getPageOver_new hmiss, heapAlloc_succ]
    by_cases hfit : Avl.findBestFit (wanted true pageTableSize) s.hs.heap.root = none
    · -- the heap has to grow, which is refused only for the last page
      obtain ⟨e, hat, hE, hle, hcase⟩ : ∃ e, HeapAtEnd S M e s.hs ∧ E ≤ e ∧ e ≤ v ∧
          (TableGrows s → e + 2 * pageSize ≤ v ∧ ¬ s.Missing e ∧ ¬ s.Missing (e + pageSize)) := by
        have hpos : 0 < pageSize := by decide
        rcases h.atEnd with hat | ⟨e, hat, hfar, hle, h1, h2⟩
        · refine ⟨E, hat, le_rfl, h.le, fun hg => ?_⟩
          have hfar := hsafe hat ⟨hmiss, hfit⟩ hg
          exact ⟨hfar, h.mapped E le_rfl (by omega), h.mapped _ (Nat.le_add_right _ _) (by omega)⟩
        · refine ⟨e, hat, by omega, by omega, fun _ => ⟨?_, h1, h2⟩⟩
          have hne : v ≠ e + pageSize := fun he => h2 (he ▸ hmiss)
          have hpe := hat.wellFormed.endPage
          have hpv := h.page
          rw [hat.endAddr] at hpe
          simp only [pageSize] at *
          omega
      by_cases hgrows : TableGrows s
      · obtain ⟨hfar, h1, h2⟩ := hcase hgrows
        rw [TableGrows, hat.startAddr, hat.maxSize, hat.endAddr] at hgrows
        obtain hr | ⟨s₁, hr, hat₁, hsame⟩ := growTable_mapped node (heapAlloc node n) hat hfit
          hgrows.1 hgrows.2 h1 h2
        · rw [hr]
          refine ⟨Run.ends_ended _, ?_⟩
          rintro page s' ⟨⟩
        · rw [hr]
          refine ⟨Run.ends_ended _, fun page s' hs' _ => ?_⟩
          simp only [Run.some_bind, Run.pure_eq, Run.ended.injEq, Option.some.injEq] at hs'
          obtain ⟨hm, hhs⟩ := missing_made hsame (by simp only [pageSize]; omega) hs'
          exact h.moved hmiss hm (hhs ▸ hat₁) hE hfar
      · rw [TableGrows, hat.startAddr, hat.maxSize, hat.endAddr] at hgrows
        refine ⟨Run.Ends.bind (growTable_ends hat hfit hgrows) fun _ _ => Run.ends_ended _,
          fun _ _ _ hmore => absurd ?_ hgrows⟩
        have hpv := h.page
        simp only [pageSize] at *
        omega
    · rw [heapAllocWith_fit hfit]
      cases hr : Vm.heapAlloc node true pageTableSize s.hs with
      | none =>
        refine ⟨Run.ends_ended _, ?_⟩
        rintro page s' ⟨⟩
      | some r =>
        obtain ⟨p, k⟩ := r
        refine ⟨Run.ends_ended _, fun page s' hs' _ => ?_⟩
        have hsame : ∀ w, GrowState.Missing ⟨k, s.vm⟩ w ↔ s.Missing w := fun _ => Iff.rfl
        simp only [Option.map_some, Run.some_bind, Run.pure_eq, Run.ended.injEq, Option.some.injEq]
          at hs'
        have hp : p ≠ 0 := by
          rcases h.atEnd with hat | ⟨e, hat, -⟩
          · exact (hat.cut hfit hr).1
          · exact (hat.cut hfit hr).1
        obtain ⟨hm, hhs⟩ := missing_made hsame hp hs'
        exact h.next hm fun e hat => hhs ▸ (hat.cut hfit hr).2
  · rw [getPageOver_old hmiss]
    refine ⟨Run.ends_ended _, fun page s' hs' _ => ?_⟩
    cases hs'
    refine h.next (fun w hw => ⟨hw, fun he => ?_⟩) fun _ hat => hat
    exact hmiss ((missing_congr he).mp hw)

/-- From the second page on the loop ends, if that page does not ask for growth. -/
theorem LoopAt.loop (h : LoopAt S M E v s) (hfar : E + pageSize ≤ v)
    (hsafe : AsksForTable s v → E + 2 * pageSize ≤ v) (hle : v ≤ newEnd) (hnew : newEnd < wordSize)
    (hlimit : newEnd ≤ add32 S M) (hpage : pageSize ∣ newEnd) (n : Nat) :
    (mapPagesWith (getPageOver (heapAlloc node (n + 1))) (Vm.mapPages heap newEnd fuel v) s).Ends := by
  induction fuel generalizing v s with
  | zero => exact Run.ends_ended _
  | succ fuel ih =>
    rcases Nat.eq_or_lt_of_le hle with rfl | hlt
    · rw [Vm.mapPages_nil le_rfl]
      exact Run.ends_ended _
    · obtain ⟨hends, hnext⟩ := h.step hnew hlimit hpage (fun _ ha _ => hsafe ha) node n
      have hpv := h.page
      have hmore : v + pageSize ≤ newEnd := by
        simp only [pageSize] at *
        omega
      rw [mapPages_succ hlt (by omega), mapPagesWith_cons]
      refine hends.bind fun x hx => ?_
      refine Run.Ends.bind (Run.ends_ended _) fun vm hvm => ?_
      obtain ⟨page, s'⟩ := x
      rcases Nat.eq_or_lt_of_le hmore with heq | hlt'
      · rw [heq, Vm.mapPages_nil le_rfl]
        exact Run.ends_ended _
      · exact ih ((hnext page s' hx hlt').allocFrame (Run.ended.inj hvm)) (by omega)
          (fun _ => by omega) hmore

-- ---------------------------------------------------------------------------
-- The two ways not to end
-- ---------------------------------------------------------------------------

theorem tableGrows_iff (h : HeapAtEnd S M e s.hs) :
    TableGrows s ↔ e + 2 * pageSize < wordSize ∧ e + 2 * pageSize ≤ add32 S M := by
  rw [TableGrows, h.startAddr, h.maxSize, h.endAddr]

theorem first_endless (h : HeapAtEnd S M e s.hs) (hask : AsksForTable s e) (hgrows : TableGrows s)
    (node fuel : Nat) : heapAlloc node fuel true pageTableSize s = .outOfFuel := by
  refine Run.outOfFuel_of_progress (fun n t => heapAlloc node n true pageTableSize t)
    (fun t => t = s) (fun _ => rfl) ?_ fuel rfl
  rintro t rfl
  refine ⟨t, rfl, fun n hrun => ?_⟩
  obtain ⟨hlt, hlimit⟩ := (tableGrows_iff h).mp hgrows
  rw [heapAlloc_succ, growTable_eq h hask.2 hlt hlimit, mapPagesWith_cons, getPageOver_new hask.1,
    hrun]
  rfl

/-- The state in which a call for a table comes to the table of the second page. -/
structure Second (S M e : Nat) (s : GrowState) : Prop where
  atEnd : HeapAtEnd S M e s.hs
  ask : AsksForTable s (e + pageSize)
  first : ¬ s.Missing e
  grows : TableGrows s

def firstFrame (s : GrowState) (vm : VmState) : Option VmState :=
  allocFrame (findPage s.hs.heap.endAddr s.vm.kernelPd s.vm) s.hs.heap.supervisor
    (!s.hs.heap.readonly) vm

theorem framesLast_iff : FramesLast s ↔
    ∀ n, ((fun vm => Option.bind vm (firstFrame s))^[n] (some s.vm)).isSome := Iff.rfl

theorem Second.panic (h : Second S M e s) (hf : firstFrame s s.vm = none) (node n : Nat) :
    heapAlloc node (n + 1) true pageTableSize s = .ended none := by
  obtain ⟨hlt, hlimit⟩ := (tableGrows_iff h.atEnd).mp h.grows
  rw [firstFrame, h.atEnd.endAddr] at hf
  rw [heapAlloc_succ, growTable_eq h.atEnd h.ask.2 hlt hlimit, mapPagesWith_cons,
    getPageOver_old h.first, Run.some_bind, hf]
  rfl

/-- Once the first page has its frame, the same call is made again. -/
theorem Second.again (h : Second S M e s) (hf : firstFrame s s.vm = some vm) (node n : Nat)
    {r : Run (Nat × GrowState)} (hr : r = .outOfFuel ∨ r = .ended none)
    (hrun : heapAlloc node n true pageTableSize { s with vm := vm } = r) :
    heapAlloc node (n + 1) true pageTableSize s = r := by
  obtain ⟨hlt, hlimit⟩ := (tableGrows_iff h.atEnd).mp h.grows
  rw [firstFrame, h.atEnd.endAddr] at hf
  have hmiss : GrowState.Missing { s with vm := vm } (e + pageSize) := by
    rw [missing_allocFrame hf]
    exact h.ask.1
  rw [heapAlloc_succ, growTable_eq h.atEnd h.ask.2 hlt hlimit, mapPagesWith_cons,
    getPageOver_old h.first, Run.some_bind, hf, Run.some_bind, mapPagesWith_cons,
    getPageOver_new hmiss, hrun]
  rcases hr with rfl | rfl <;> rfl

theorem Second.frame (h : Second S M e s) (hf : firstFrame s s.vm = some vm) :
    Second S M e { s with vm := vm } ∧ firstFrame { s with vm := vm } = firstFrame s := by
  rw [firstFrame] at hf
  obtain ⟨_, _, rfl⟩ := allocFrame_same hf
  exact ⟨⟨h.atEnd, h.ask, h.first, h.grows⟩, rfl⟩

theorem second_endless (h : Second S M e s) (hlast : FramesLast s) (node fuel : Nat) :
    heapAlloc node fuel true pageTableSize s = .outOfFuel := by
  refine Run.outOfFuel_of_progress (fun n t => heapAlloc node n true pageTableSize t)
    (fun t => Second S M e t ∧ FramesLast t) (fun _ => rfl) ?_ fuel ⟨h, hlast⟩
  rintro t ⟨ht, hlast⟩
  rw [framesLast_iff] at hlast
  obtain ⟨vm, hf⟩ := Option.isSome_iff_exists.mp (hlast 1)
  have hf : firstFrame t t.vm = some vm := hf
  obtain ⟨ht', hsame⟩ := ht.frame hf
  refine ⟨{ t with vm := vm }, ⟨ht', framesLast_iff.mpr fun n => ?_⟩,
    fun n hrun => ht.again hf node n (.inl rfl) hrun⟩
  have hnext := hlast (n + 1)
  rw [Function.iterate_succ_apply, Option.bind_some, hf] at hnext
  rw [hsame]
  exact hnext

/-- A frame is lacking after `n` calls: the panic ends the recursion. -/
theorem second_panics (h : Second S M e s) (n : Nat)
    (hout : (fun vm => Option.bind vm (firstFrame s))^[n] (some s.vm) = none) (node m : Nat) :
    heapAlloc node (n + m) true pageTableSize s = .ended none := by
  induction n generalizing s with
  | zero => cases hout
  | succ n ih =>
    rw [Function.iterate_succ_apply, Option.bind_some] at hout
    rw [Nat.add_right_comm]
    cases hf : firstFrame s s.vm with
    | none => exact h.panic hf node _
    | some vm =>
      obtain ⟨h', hsame⟩ := h.frame hf
      rw [hf] at hout
      refine h.again hf node _ (.inr rfl) (ih h' ?_)
      rw [hsame]
      exact hout

-- ---------------------------------------------------------------------------
-- The first page
-- ---------------------------------------------------------------------------

variable {r : PageRequest} {rs : List PageRequest}

def firstRequest (heap : Heap) : PageRequest := ⟨heap.endAddr, heap.supervisor, !heap.readonly⟩

theorem mapPagesWith_one (r : PageRequest) (s : GrowState) :
    mapPagesWith getPage [r] s = getPage r.vaddr s >>= fun x =>
      .ended (allocFrame x.1 r.kernel r.writable x.2.vm) >>= fun vm => pure { x.2 with vm := vm } := rfl

theorem mapPagesWith_single (h : mapPagesWith getPage [r] s = .ended (some s₁)) :
    ∃ page s' vm, getPage r.vaddr s = .ended (some (page, s')) ∧
      allocFrame page r.kernel r.writable s'.vm = some vm ∧ s₁ = { s' with vm := vm } := by
  rw [mapPagesWith_cons] at h
  obtain ⟨⟨page, s'⟩, hg, h⟩ := Run.bind_eq_some h
  obtain ⟨vm, hf, h⟩ := Run.bind_eq_some h
  cases h
  exact ⟨page, s', vm, hg, Run.ended.inj hf, rfl⟩

theorem mapPagesWith_split (r : PageRequest) (rs : List PageRequest) (s : GrowState) :
    mapPagesWith getPage (r :: rs) s = mapPagesWith getPage [r] s >>= mapPagesWith getPage rs := by
  rw [mapPagesWith_cons, mapPagesWith_one, Run.bind_assoc]
  simp only [Run.bind_assoc, Run.pure_eq, Run.some_bind]

/-- If the first page has a table or the free tree has room for it, the heap does not grow for
this page. -/
theorem mapFirst_run (hask : ¬ AsksForTable s s.hs.heap.endAddr) (node fuel : Nat) :
    mapPagesWith (getPageOver (heapAlloc node fuel)) [firstRequest s.hs.heap] s = .outOfFuel ∧
      fuel = 0 ∨
    mapPagesWith (getPageOver (heapAlloc node fuel)) [firstRequest s.hs.heap] s =
      mapFirst node s := by
  rw [mapFirst, firstRequest, mapPagesWith_one, mapPagesWith_one]
  by_cases hmiss : s.Missing s.hs.heap.endAddr
  · have hfit := fun hnone => hask ⟨hmiss, hnone⟩
    rw [getPageOver_new hmiss, getPageOver_new hmiss, heapAllocWith_fit hfit]
    cases fuel with
    | zero => exact .inl ⟨rfl, rfl⟩
    | succ n =>
      rw [heapAlloc_succ, heapAllocWith_fit hfit]
      exact .inr rfl
  · rw [getPageOver_old hmiss, getPageOver_old hmiss]
    exact .inr rfl

theorem mapFirst_mapped (hw : WellFormed s.hs live)
    (hask : ¬ AsksForTable s s.hs.heap.endAddr) (hnew : newEnd < wordSize)
    (hlimit : newEnd ≤ add32 s.hs.heap.startAddr s.hs.heap.maxSize) (hpage : pageSize ∣ newEnd)
    (hmore : s.hs.heap.endAddr + pageSize < newEnd) (hm : mapFirst node s = .ended (some s₁)) :
    LoopAt s.hs.heap.startAddr s.hs.heap.maxSize s.hs.heap.endAddr (s.hs.heap.endAddr + pageSize)
        s₁ ∧
      HeapAtEnd s.hs.heap.startAddr s.hs.heap.maxSize s.hs.heap.endAddr s₁.hs := by
  obtain ⟨hends, hnext⟩ := (loopAt_start hw).step hnew hlimit hpage (fun _ ha => absurd ha hask) node 0
  have hrun := (mapFirst_run hask node (0 + 1)).resolve_left fun h => Nat.succ_ne_zero 0 h.2
  obtain ⟨page, s', vm, hg, hf, rfl⟩ := mapPagesWith_single (hrun.trans hm)
  simp only [firstRequest] at hg
  have hmapped := (hnext page s' hg hmore).allocFrame hf
  refine ⟨hmapped, ?_⟩
  rcases hmapped.atEnd with hat | ⟨e, -, hfar, hle, -⟩
  · exact hat
  · have hpos : 0 < pageSize := by decide
    omega

-- ---------------------------------------------------------------------------
-- The recursion as a whole
-- ---------------------------------------------------------------------------

theorem second_of_mapped (hw : WellFormed s.hs live) (hgrows : TableGrows s)
    (hmapped : LoopAt s.hs.heap.startAddr s.hs.heap.maxSize s.hs.heap.endAddr
      (s.hs.heap.endAddr + pageSize) s₁)
    (hat : HeapAtEnd s.hs.heap.startAddr s.hs.heap.maxSize s.hs.heap.endAddr s₁.hs)
    (hask : AsksForTable s₁ (s.hs.heap.endAddr + pageSize)) :
    Second s.hs.heap.startAddr s.hs.heap.maxSize s.hs.heap.endAddr s₁ :=
  ⟨hat, hask, hmapped.mapped _ le_rfl (Nat.lt_add_of_pos_right (by decide)),
    (tableGrows_iff hat).mpr ((tableGrows_iff (heapAtEnd hw)).mp hgrows)⟩

def laterPages (heap : Heap) (newEnd : Nat) : List PageRequest :=
  Vm.mapPages heap newEnd (wordSize / pageSize - 1) (heap.endAddr + pageSize)

theorem HasToGrow.bounds (h : HasToGrow pageAlign size s newEnd) : newEnd < wordSize ∧
    newEnd ≤ add32 s.hs.heap.startAddr s.hs.heap.maxSize ∧ pageSize ∣ newEnd := by
  obtain ⟨-, hpast, rfl, -⟩ := h
  refine ⟨Nat.mod_lt _ (by decide), Nat.not_lt.mp hpast, ?_⟩
  exact (Nat.dvd_mod_iff (by decide)).mpr (Vm.dvd_roundUp _)

theorem HasToGrow.next_le (h : HasToGrow pageAlign size s newEnd) (hw : WellFormed s.hs live) :
    s.hs.heap.endAddr + pageSize ≤ newEnd := by
  obtain ⟨-, -, hdvd⟩ := h.bounds
  have hend := hw.endPage
  have hlt := h.2.2.2
  simp only [pageSize] at *
  omega

/-- A call of `heap_alloc` that has to grow ends if its loop does. -/
theorem HasToGrow.ends_iff (h : HasToGrow pageAlign size s newEnd) (hw : WellFormed s.hs live)
    (node fuel : Nat) : (heapAlloc node (fuel + 1) pageAlign size s).Ends ↔
      (mapPagesWith (getPageOver (heapAlloc node fuel))
        (firstRequest s.hs.heap :: laterPages s.hs.heap newEnd) s).Ends := by
  have hnext := h.next_le hw
  obtain ⟨hnew, -, -⟩ := h.bounds
  obtain ⟨hnone, hpast, heq, hlt⟩ := h
  have hfuel : wordSize / pageSize = wordSize / pageSize - 1 + 1 := by decide
  have hpages : Vm.mapPages s.hs.heap newEnd (wordSize / pageSize) s.hs.heap.endAddr =
      firstRequest s.hs.heap :: laterPages s.hs.heap newEnd := by
    rw [hfuel, mapPages_succ hlt (by omega)]
    rfl
  rw [heapAlloc_succ, heapAllocWith_grow hw hnone, expandHeapWith_accepted hpast, heq, hpages]
  rw [Run.bind_pure_ends, Run.bind_pure_ends]

theorem laterPages_second (hmore : s.hs.heap.endAddr + pageSize < newEnd) (hnew : newEnd < wordSize)
    (hpage : pageSize ∣ newEnd) (hend : pageSize ∣ s.hs.heap.endAddr)
    (hmiss : s₁.Missing (s.hs.heap.endAddr + pageSize)) {x : Run (Nat × GrowState)}
    (hx : x = .outOfFuel ∨ x = .ended none) (hrun : alloc true pageTableSize s₁ = x) :
    (mapPagesWith (getPageOver alloc) (laterPages s.hs.heap newEnd) s₁).Ends ↔ x.Ends := by
  have hfuel : wordSize / pageSize - 1 = wordSize / pageSize - 2 + 1 := by decide
  have hnext : s.hs.heap.endAddr + pageSize + pageSize < wordSize := by
    simp only [pageSize] at *
    omega
  rw [laterPages, hfuel, mapPages_succ hmore hnext, mapPagesWith_cons, getPageOver_new hmiss, hrun]
  rcases hx with rfl | rfl
  · exact iff_of_false (fun h => h rfl) fun h => h rfl
  · exact iff_of_true (Run.ends_ended none) (Run.ends_ended none)

theorem Endless.outOfFuel (h : Endless node pageAlign size s) (hw : WellFormed s.hs live) :
    ¬ GrowthEnds node pageAlign size s := by
  rintro ⟨fuel, hends⟩
  obtain ⟨newEnd, hgrow, htable, hcase⟩ := h
  cases fuel with
  | zero => exact hends rfl
  | succ fuel =>
    rw [hgrow.ends_iff hw] at hends
    by_cases hask : AsksForTable s s.hs.heap.endAddr
    · rw [mapPagesWith_cons, firstRequest, getPageOver_new hask.1,
        first_endless (heapAtEnd hw) hask htable] at hends
      exact hends rfl
    · obtain ⟨hmore, s₁, hm, hask₁, hlast⟩ := hcase.resolve_left hask
      obtain ⟨hnew, hlimit, hpage⟩ := hgrow.bounds
      obtain ⟨hmapped, hat⟩ := mapFirst_mapped hw hask hnew hlimit hpage hmore hm
      rcases mapFirst_run hask node fuel with ⟨hstop, -⟩ | hrun
      · rw [mapPagesWith_split, hstop] at hends
        exact hends rfl
      · have hsecond := second_of_mapped hw htable hmapped hat hask₁
        rw [mapPagesWith_split, hrun, hm, Run.some_bind, laterPages_second hmore hnew hpage
          hw.endPage hask₁.1 (.inl rfl) (second_endless hsecond hlast node fuel)] at hends
        exact hends rfl

theorem HasToGrow.tableGrows (h : HasToGrow pageAlign size s newEnd) (hw : WellFormed s.hs live)
    (hmore : s.hs.heap.endAddr + pageSize < newEnd) : TableGrows s := by
  obtain ⟨hnew, hlimit, hpage⟩ := h.bounds
  have hend := hw.endPage
  rw [tableGrows_iff (heapAtEnd hw)]
  simp only [pageSize] at *
  omega

theorem HasToGrow.ends_first (h : HasToGrow pageAlign size s newEnd) (hw : WellFormed s.hs live)
    (hnot : ¬ Endless node pageAlign size s) (hlast : newEnd ≤ s.hs.heap.endAddr + pageSize) :
    GrowthEnds node pageAlign size s := by
  obtain ⟨hnew, hlimit, hpage⟩ := h.bounds
  refine ⟨0 + 1 + 1, (h.ends_iff hw node (0 + 1)).mpr ?_⟩
  obtain ⟨hends, -⟩ := (loopAt_start hw).step hnew hlimit hpage
    (fun _ hask hgrows => absurd ⟨newEnd, h, hgrows, .inl hask⟩ hnot) node 0
  rw [mapPagesWith_cons, laterPages, Vm.mapPages_nil hlast]
  exact hends.bind fun _ _ => Run.Ends.bind (Run.ends_ended _) fun _ _ => Run.ends_ended _

/-- Mapping the first page is not what goes on forever. -/
theorem mapFirst_ends (hw : WellFormed s.hs live) (hask : ¬ AsksForTable s s.hs.heap.endAddr)
    (h : HasToGrow pageAlign size s newEnd) (node : Nat) : (mapFirst node s).Ends := by
  obtain ⟨hnew, hlimit, hpage⟩ := h.bounds
  obtain ⟨hends, -⟩ := (loopAt_start hw).step hnew hlimit hpage (fun _ ha => absurd ha hask) node 0
  have hrun := (mapFirst_run hask node (0 + 1)).resolve_left fun h => Nat.succ_ne_zero 0 h.2
  rw [← hrun, firstRequest, mapPagesWith_one]
  exact hends.bind fun _ _ => Run.Ends.bind (Run.ends_ended _) fun _ _ => Run.ends_ended _

/-- The first page is mapped: the others end, or there are not frames enough to ask for the
second again and again. -/
theorem HasToGrow.ends_later (h : HasToGrow pageAlign size s newEnd) (hw : WellFormed s.hs live)
    (hnot : ¬ Endless node pageAlign size s) (hgrows : TableGrows s)
    (hmore : s.hs.heap.endAddr + pageSize < newEnd) (hask : ¬ AsksForTable s s.hs.heap.endAddr)
    (hm : mapFirst node s = .ended (some s₁)) : GrowthEnds node pageAlign size s := by
  obtain ⟨hnew, hlimit, hpage⟩ := h.bounds
  have hrun := fun n => (mapFirst_run hask node (n + 1)).resolve_left fun h => Nat.succ_ne_zero n h.2
  obtain ⟨hmapped, hat⟩ := mapFirst_mapped hw hask hnew hlimit hpage hmore hm
  by_cases hask₁ : AsksForTable s₁ (s.hs.heap.endAddr + pageSize)
  · -- the panic that ends the recursion
    have hshort : ¬ FramesLast s₁ := fun hlast =>
      hnot ⟨newEnd, h, hgrows, .inr ⟨hmore, s₁, hm, hask₁, hlast⟩⟩
    obtain ⟨n, hn⟩ := not_forall.mp (mt framesLast_iff.mpr hshort)
    have hsecond := second_of_mapped hw hgrows hmapped hat hask₁
    refine ⟨n + 1 + 1, (h.ends_iff hw node (n + 1)).mpr ?_⟩
    rw [mapPagesWith_split, hrun, hm, Run.some_bind, laterPages_second hmore hnew hpage hw.endPage
      hask₁.1 (.inr rfl) (second_panics hsecond n (Option.not_isSome_iff_eq_none.mp hn) node 1)]
    exact Run.ends_ended _
  · refine ⟨0 + 1 + 1, (h.ends_iff hw node (0 + 1)).mpr ?_⟩
    rw [mapPagesWith_split, hrun, hm, Run.some_bind]
    exact hmapped.loop le_rfl (fun ha => absurd ha hask₁) hmore.le hnew hlimit hpage 0

theorem HasToGrow.ends (h : HasToGrow pageAlign size s newEnd) (hw : WellFormed s.hs live)
    (hnot : ¬ Endless node pageAlign size s) : GrowthEnds node pageAlign size s := by
  by_cases hmore : s.hs.heap.endAddr + pageSize < newEnd
  · have hgrows := h.tableGrows hw hmore
    have hask : ¬ AsksForTable s s.hs.heap.endAddr := fun hask =>
      hnot ⟨newEnd, h, hgrows, .inl hask⟩
    cases hm : mapFirst node s with
    | outOfFuel => exact absurd hm (mapFirst_ends hw hask h node)
    | ended o =>
      cases o with
      | none =>
        have hrun := (mapFirst_run hask node (0 + 1)).resolve_left fun h => Nat.succ_ne_zero 0 h.2
        refine ⟨0 + 1 + 1, (h.ends_iff hw node (0 + 1)).mpr ?_⟩
        rw [mapPagesWith_split, hrun, hm]
        exact Run.ends_ended _
      | some s₁ => exact h.ends_later hw hnot hgrows hmore hask hm
  · exact h.ends_first hw hnot (Nat.not_lt.mp hmore)

/-- A call that need not grow the heap, or whose growth is refused or wraps to before the end,
makes no further call. -/
theorem ends_at_once (hw : WellFormed s.hs live) (h : ∀ newEnd, ¬ HasToGrow pageAlign size s newEnd) :
    GrowthEnds node pageAlign size s := by
  refine ⟨0 + 1, ?_⟩
  rw [heapAlloc_succ]
  by_cases hfit : Avl.findBestFit (wanted pageAlign size) s.hs.heap.root = none
  · rw [heapAllocWith_grow hw hfit, Run.bind_pure_ends]
    by_cases hpast : PastLimit (growth pageAlign size) s.hs.heap
    · rw [expandHeapWith_refused hpast]
      exact Run.ends_ended _
    · have hback := Nat.not_lt.mp fun hlt => h _ ⟨hfit, hpast, rfl, hlt⟩
      rw [expandHeapWith_accepted hpast, Vm.mapPages_nil hback]
      exact Run.ends_ended _
  · rw [heapAllocWith_fit hfit]
    exact Run.ends_ended _

/-- The exact condition under which growing the heap ends. -/
theorem growth_ends_iff (hw : WellFormed s.hs live) :
    GrowthEnds node pageAlign size s ↔ ¬ Endless node pageAlign size s := by
  constructor
  · exact fun hends h => h.outOfFuel hw hends
  · intro hnot
    by_cases h : ∃ newEnd, HasToGrow pageAlign size s newEnd
    · obtain ⟨newEnd, h⟩ := h
      exact h.ends hw hnot
    · exact ends_at_once hw (not_exists.mp h)

/-- `kheap` with its first page table, no free block, and its end at `endAddr`. -/
def tableFull (endAddr : Nat) : GrowState where
  hs := ⟨⟨.nil, 0xC0000000, endAddr, 0x10000000, true, false⟩, fun _ => 0, []⟩
  vm :=
    { placementAddress := 0x200000
      kheap := none
      frames := Pm.frameInitialize (fun _ => 0) 0x100000 128
      pageTables := fun _ _ => 0
      pageDirectories := fun _ => ⟨fun _ => 0, fun i => if i = 768 then 0x201000 else 0, 0⟩
      kernelPd := 0x200000
      currentPd := 0x200000
      phys := fun _ => 0
      placed := []
      held := []
      made := []
      directories := [] }

theorem tableFull_wellFormed : WellFormed (tableFull 0xC0400000).hs [] :=
  ⟨by decide, by decide, by decide, by decide, Tiling.start, by decide⟩

theorem tableFull_page_wellFormed : WellFormed (tableFull 0xC03FF000).hs [] :=
  ⟨by decide, by decide, by decide, by decide, Tiling.start, by decide⟩

/-- The heap has to grow by the last page of its table. -/
theorem growth_ends_page : HasToGrow false 16 (tableFull 0xC03FF000) 0xC0400000 ∧
    GrowthEnds 0 false 16 (tableFull 0xC03FF000) := by
  refine ⟨⟨rfl, by decide, by decide, by decide⟩, (growth_ends_iff tableFull_page_wellFormed).mpr ?_⟩
  rintro ⟨newEnd, ⟨-, -, hend, -⟩, -, ⟨hmissing, -⟩ | ⟨hmore, -⟩⟩
  · exact absurd hmissing (by decide)
  · rw [← hend] at hmore
    exact absurd hmore (by decide)

/-- The heap ends where its page table does and has no free block: for 16 bytes it has to
grow, for this `get_page` wants a table, and for the table the heap has to grow. -/
theorem growth_endless : ¬ ∀ (s : GrowState) (live : List Span) (node size : Nat)
    (pageAlign : Bool), WellFormed s.hs live →
    s.hs.heap.startAddr + s.hs.heap.maxSize ≤ wordSize → GrowthEnds node pageAlign size s := by
  intro hall
  refine Endless.outOfFuel ⟨0xC0401000, ?_, ?_, .inl ?_⟩ tableFull_wellFormed
    (hall (tableFull 0xC0400000) [] 0 16 false tableFull_wellFormed (by decide))
  · exact ⟨rfl, by decide, by decide, by decide⟩
  · exact ⟨by decide, by decide⟩
  · exact ⟨rfl, rfl⟩

end

end Shigure.Paging
