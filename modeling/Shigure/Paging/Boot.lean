import Shigure.Lib.Stride
import Shigure.Paging.Tables

/-!
# `pm_initialize` and `vm_initialize`

The bitmaps of the frame allocator, the kernel's page directory and its tables
go behind `placement_address`. The frames of the identity mapping are never
named: `pmalloc` hands out 0, 1, 2, ... while the loops count the pages up.
-/

namespace Shigure.Paging

open Pm (frameSize)
open Vm (pageSize)
open Vm.KHeap (kheapStart kheapInitialSize heapSize nodeSize kheapInit)

-- ---------------------------------------------------------------------------
-- `pm_initialize`
-- ---------------------------------------------------------------------------

structure MmapEntry where
  addr : Nat
  len : Nat
  type : Nat

/-- What the boot loader leaves; `modEnd` is the end of the first module, and
`kernelSize` is `ekernel - stext`. -/
structure Multiboot where
  mmap : List MmapEntry
  modEnd : Nat
  kernelSize : Nat

/-- `pm_start` and `pm_amount`: the last available part of memory larger than
`0x1000000` bytes. -/
def findMemory (mmap : List MmapEntry) : Nat × Int :=
  mmap.foldl (fun found e =>
    if e.type = 1 ∧ e.len > 0x1000000 then (e.addr % wordSize, intOfWord (e.len % wordSize))
    else found) (0, 0)

structure PhysicalMemory where
  pmEnd : Nat
  pmUsable : Int
  placementAddress : Nat
  initrdEnd : Nat
  deriving DecidableEq

def pmInitialize (initrdStart : Nat) (mbt : Multiboot) : PhysicalMemory :=
  let (pmStart, pmAmount) := findMemory mbt.mmap
  let initrdEnd := mbt.modEnd
  let initrdSize := sub32 initrdEnd initrdStart
  let pmEnd := add32 pmStart (wordOfInt pmAmount)
  let pmStart := add32 pmStart (align mbt.kernelSize frameSize)
  let pmStart := add32 pmStart (align initrdSize frameSize)
  ⟨pmEnd, intOfWord (sub32 pmEnd pmStart), pmStart, initrdEnd⟩

def PhysicalMemory.nframes (m : PhysicalMemory) : Nat := wordOfInt (m.pmUsable.tdiv frameSize)

-- ---------------------------------------------------------------------------
-- `vm_initialize`
-- ---------------------------------------------------------------------------

/-- There are `2 ^ 20` pages. -/
def loopFuel : Nat := 2 ^ 20 + 1

/-- Align only the first time. -/
def placeBitmap (nframes i : Nat) (s : VmState) : Option VmState :=
  (ikmalloc ((nframes / 2 ^ i + 7) / 8) (i == 0) s).map fun r => r.2.2

def placeBitmaps (nframes : Nat) : List Nat → VmState → Option VmState
  | [], s => some s
  | i :: is, s => (placeBitmap nframes i s).bind (placeBitmaps nframes is)

def frameInitialize (nframes : Nat) (s : VmState) : Option VmState := do
  let placement := s.placementAddress
  let s ← placeBitmaps nframes Pm.orders s
  some { s with frames := Pm.frameInitialize s.phys placement nframes }

def makeKernelPd (s : VmState) : Option VmState := do
  let (pd, _, s) ← ikmalloc pageDirectorySize true s
  some { s.setDirectory pd ⟨fun _ => pageRw, fun _ => 0, BitVec.ofNat 32 pd⟩ with
    kernelPd := pd, directories := pd :: s.directories }

/-- `get_page(vaddr, kernel_pd, true)`. -/
def kernelPage (vaddr : Nat) (s : VmState) : Option VmState :=
  (getPage vaddr s.kernelPd true s).map Prod.snd

/-- `alloc_frame(get_page(vaddr, kernel_pd, true), false, false)`. -/
def mapKernelPage (vaddr : Nat) (s : VmState) : Option VmState := do
  let (page, s) ← getPage vaddr s.kernelPd true s
  allocFrame page false false s

def mapKheapTables (s : VmState) : Option VmState :=
  (whileBelow pageSize (fun _ => kheapStart + kheapInitialSize) kernelPage loopFuel kheapStart
    s).map Prod.snd

/-- Map the kernel identically; the bound moves when a table is made. -/
def mapKernel (s : VmState) : Option (Nat × VmState) :=
  whileBelow pageSize (fun s => add32 s.placementAddress pageSize) mapKernelPage loopFuel 0 s

def mapInitrd (initrdEnd vaddr : Nat) (s : VmState) : Option (Nat × VmState) :=
  whileBelow pageSize (fun _ => add32 initrdEnd pageSize) mapKernelPage loopFuel vaddr s

def mapKheapFrames (s : VmState) : Option VmState :=
  (whileBelow pageSize (fun _ => kheapStart + kheapInitialSize) mapKernelPage loopFuel kheapStart
    s).map Prod.snd

/-- `vm_initialize` to the end of the identity mapping. -/
def mapIdentity (nframes initrdEnd : Nat) (s : VmState) : Option (Nat × VmState) := do
  let s ← frameInitialize nframes s
  let s ← makeKernelPd s
  let s ← mapKheapTables s
  let (vaddr, s) ← mapKernel s
  mapInitrd initrdEnd vaddr s

def kernelMem (s : VmState) : Mem := fun a => s.phys (kernelPhys a s).toNat

/-- `heap_init` of `kheap`: the `heap_t` and the node of its only block are placed. -/
def makeKheap (s : VmState) : Option VmState := do
  let (heap, _, s) ← ikmalloc heapSize false s
  if heap = 0 then some s
  else
    let (_, _, s) ← ikmalloc nodeSize false s
    some { s with kheap := some (kheapInit heap (kernelMem s)) }

/-- `vm_initialize` from the end of the identity mapping up to the first clone. -/
def enablePaging (initrdEnd : Nat) (s : VmState) : Option VmState := do
  let s ← mapKheapFrames { s with placementAddress := add32 initrdEnd pageSize }
  makeKheap s

def vmInitialize (nframes initrdEnd : Nat) (s : VmState) : Option VmState := do
  let (_, s) ← mapIdentity nframes initrdEnd s
  let s ← enablePaging initrdEnd s
  let (pd, s) ← clonePageDirectory s.kernelPd s
  some { s with currentPd := pd }

end Shigure.Paging
