import Shigure.Lib.Fuel
import Shigure.Paging.Tables
import Shigure.Vm.Sizes

/-!
# A kernel heap that grows

`heap_alloc` of `kheap` where `expand_heap` may be accepted: each new page is
mapped by `get_page`, which takes a missing page table from the same heap before
its end has moved, and so comes back to `heap_alloc`. Each function is written
over the one that it calls; `heapAlloc` ties the knot with fuel.

The tree of the heap is a value. The fragment that `heap_alloc` inserts before an
aligned block has the base of a block that is in the tree, so `create_node`, which
would be another way back to `heap_alloc`, is not called; `node` is the address
that it would get. A run that has ended without a result has panicked for want
of frames or met a missing child in a rotation.
-/

namespace Shigure.Paging

open Vm (HeapState PageRequest Block headerSize pageSize wanted alignHeader)

/-- `kheap`, and the rest of the machine: of `vm` the field `kheap` is not used. -/
structure GrowState where
  hs : HeapState
  vm : VmState

namespace GrowState

/-- `kernel_pd->tables[pd_index]` is `NULL`. -/
def Missing (s : GrowState) (vaddr : Nat) : Prop :=
  (s.vm.pageDirectories s.vm.kernelPd).tables (pdIndex vaddr) = 0

instance (s : GrowState) (vaddr : Nat) : Decidable (s.Missing vaddr) := Nat.decEq _ _

def addTable (s : GrowState) (vaddr newTable : Nat) (paddr : BitVec 32) : GrowState :=
  let vm := s.vm.setTable newTable fun _ => pageRw
  let vm := vm.setPde vm.kernelPd (pdIndex vaddr) newTable (paddr ||| pagePresent ||| pageRw)
  { s with vm := vm }

def setEnd (s : GrowState) (endAddr : Nat) : GrowState :=
  { s with hs := { s.hs with heap := { s.hs.heap with endAddr := endAddr } } }

end GrowState

/-- `ikmalloc` with `paddr`: the address, and the physical address. -/
def ikmallocWith (heapAlloc : Bool → Nat → GrowState → Run (Nat × GrowState)) (size : Nat)
    (pageAlign : Bool) (s : GrowState) : Run (Nat × BitVec 32 × GrowState) := do
  let (vaddr, s) ← heapAlloc pageAlign size s
  pure (vaddr, kernelPhys vaddr s.vm, s)

def getPageWith (ikmalloc : Nat → Bool → GrowState → Run (Nat × BitVec 32 × GrowState))
    (vaddr : Nat) (s : GrowState) : Run (Slot × GrowState) :=
  if s.Missing vaddr then do
    let (newTable, paddr, s) ← ikmalloc pageTableSize true s
    if newTable = 0 then pure (.null, s)
    else pure (⟨newTable, ptIndex vaddr⟩, s.addTable vaddr newTable paddr)
  else pure (findPage vaddr s.vm.kernelPd s.vm, s)

/-- The loop of `expand_heap`, over the pages that it comes to. -/
def mapPagesWith (getPage : Nat → GrowState → Run (Slot × GrowState)) :
    List PageRequest → GrowState → Run GrowState
  | [], s => pure s
  | r :: rs, s => do
    let (page, s) ← getPage r.vaddr s
    let vm ← .ended (allocFrame page r.kernel r.writable s.vm)
    mapPagesWith getPage rs { s with vm := vm }

/-- The end of the heap moves when all its new pages are there, to where it was
to go before they were. -/
def expandHeapWith (getPage : Nat → GrowState → Run (Slot × GrowState)) (size : Nat)
    (s : GrowState) : Run (Nat × GrowState) :=
  let heap := s.hs.heap
  let newEndAddr := align (add32 heap.endAddr size) pageSize
  if newEndAddr > add32 heap.startAddr heap.maxSize then pure (0, s)
  else do
    let s ← mapPagesWith getPage
      (Vm.mapPages heap newEndAddr (wordSize / pageSize) heap.endAddr) s
    pure (sub32 newEndAddr heap.startAddr, s.setEnd newEndAddr)

def heapAllocWith (node : Nat) (expandHeap : Nat → GrowState → Run (Nat × GrowState))
    (pageAlign : Bool) (size : Nat) (s : GrowState) : Run (Nat × GrowState) :=
  match Avl.findBestFit (wanted pageAlign size) s.hs.heap.root with
  | none => do
    let endAddr := s.hs.heap.endAddr
    let allocAddr := if pageAlign then alignHeader endAddr else endAddr
    let (total, s) ← expandHeap (add32 (add32 (sub32 allocAddr endAddr) headerSize) size) s
    if total = 0 then pure (0, s)
    else pure (add32 allocAddr headerSize, { s with hs := s.hs.storeHeader allocAddr size })
  | some _ =>
    .ended ((Vm.heapAlloc node pageAlign size s.hs).map fun r => (r.1, { s with hs := r.2 }))

def getPageOver (heapAlloc : Bool → Nat → GrowState → Run (Nat × GrowState)) (vaddr : Nat)
    (s : GrowState) : Run (Slot × GrowState) :=
  getPageWith (ikmallocWith heapAlloc) vaddr s

/-- `heap_alloc` on `kheap`, called at most `fuel` deep. -/
def heapAlloc (node : Nat) : Nat → Bool → Nat → GrowState → Run (Nat × GrowState)
  | 0, _, _, _ => .outOfFuel
  | fuel + 1, pageAlign, size, s =>
    heapAllocWith node (expandHeapWith (getPageOver (heapAlloc node fuel))) pageAlign size s

def GrowthEnds (node : Nat) (pageAlign : Bool) (size : Nat) (s : GrowState) : Prop :=
  ∃ fuel, (heapAlloc node fuel pageAlign size s).Ends

-- ---------------------------------------------------------------------------
-- When it does not
-- ---------------------------------------------------------------------------

/-- `get_page` has to make a table and no free block has room for it. -/
def AsksForTable (s : GrowState) (vaddr : Nat) : Prop :=
  s.Missing vaddr ∧ Avl.findBestFit (wanted true pageTableSize) s.hs.heap.root = none

/-- The heap may grow by a page table and the page before it. -/
def TableGrows (s : GrowState) : Prop :=
  s.hs.heap.endAddr + 2 * pageSize < wordSize ∧
    s.hs.heap.endAddr + 2 * pageSize ≤ add32 s.hs.heap.startAddr s.hs.heap.maxSize

def mapFirst (node : Nat) (s : GrowState) : Run GrowState :=
  mapPagesWith (getPageOver (heapAllocWith node fun _ _ => .ended none))
    [⟨s.hs.heap.endAddr, s.hs.heap.supervisor, !s.hs.heap.readonly⟩] s

/-- However often `alloc_frame` is called for the page at the end of the heap, it does not
panic. -/
def FramesLast (s : GrowState) : Prop :=
  ∀ n, ((fun vm => vm.bind (allocFrame (findPage s.hs.heap.endAddr s.vm.kernelPd s.vm)
    s.hs.heap.supervisor !s.hs.heap.readonly))^[n] (some s.vm)).isSome

/-- The first page is mapped, and the table of the second has to come from growth. -/
def SecondAsks (node : Nat) (s : GrowState) : Prop :=
  ∃ s₁, mapFirst node s = .ended (some s₁) ∧ AsksForTable s₁ (s.hs.heap.endAddr + pageSize) ∧
    FramesLast s₁

def HasToGrow (pageAlign : Bool) (size : Nat) (s : GrowState) (newEnd : Nat) : Prop :=
  Avl.findBestFit (wanted pageAlign size) s.hs.heap.root = none ∧
    ¬ Vm.PastLimit (Vm.growth pageAlign size) s.hs.heap ∧
    Vm.roundUp (s.hs.heap.endAddr + Vm.growth pageAlign size) % wordSize = newEnd ∧
    s.hs.heap.endAddr < newEnd

/-- The heap has to grow, and growing it needs a page table for the first or the second new
page that only further growth can give: then the call for the table asks for the same
table. -/
def Endless (node : Nat) (pageAlign : Bool) (size : Nat) (s : GrowState) : Prop :=
  ∃ newEnd, HasToGrow pageAlign size s newEnd ∧ TableGrows s ∧
    (AsksForTable s s.hs.heap.endAddr ∨
      (s.hs.heap.endAddr + pageSize < newEnd ∧ SecondAsks node s))

end Shigure.Paging
