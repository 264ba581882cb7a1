import Shigure.Lib.PageWord
import Shigure.Pm.Frames
import Shigure.Vm.KHeap

/-!
# Page tables

The paging half of `vm.c`. Page tables and page directories are objects in
memory, found by the address of their first byte; `phys` is what the frames
hold. Objects that the allocators hand out are taken to be apart from each
other, so a write into one leaves the others alone. The kernel heap never grows,
so that it asks for no pages while it hands out a block.

`none` is a panic for want of frames, or an access through `NULL` inside the
heap. `placed`, `held`, `made` and `directories` are not in the program: they
collect what `ikmalloc` has handed out before and from the heap, and the
addresses of the page tables and page directories.
-/

namespace Shigure.Paging

open Pm (FrameState frameSize pmalloc pfree)
open Vm (Block headerSize pageSize)
open Vm.KHeap (KState)

def pdEntries : Nat := 0x400

def ptEntries : Nat := 0x400

-- the flags are the same for PTEs and PDEs
def pagePresent : BitVec 32 := 0x1

def pageRw : BitVec 32 := 0x2

def pageUser : BitVec 32 := 0x4

def pageAccessed : BitVec 32 := 0x20

def pageDirty : BitVec 32 := 0x40

def pteToPfn (pte : BitVec 32) : Nat := high pte

def pageTableSize : Nat := 0x1000

/-- `sizeof(page_directory_t)`: `entries`, `tables` and `paddr_pde`. -/
def pageDirectorySize : Nat := 0x2004

structure PageDirectory where
  entries : Nat → BitVec 32
  tables : Nat → Nat
  paddrPde : BitVec 32

/-- A pointer to a page table entry. -/
structure Slot where
  table : Nat
  index : Nat
  deriving DecidableEq, Repr

/-- The first entry of a table at address 0 is at address 0. -/
def Slot.null : Slot := ⟨0, 0⟩

structure VmState where
  placementAddress : Nat
  kheap : Option KState
  frames : FrameState
  pageTables : Nat → Nat → BitVec 32
  pageDirectories : Nat → PageDirectory
  kernelPd : Nat
  currentPd : Nat
  phys : Mem
  placed : List Span
  held : List Block
  made : List Nat
  directories : List Nat

namespace VmState

def entry (s : VmState) (page : Slot) : BitVec 32 := s.pageTables page.table page.index

def setEntry (s : VmState) (page : Slot) (pte : BitVec 32) : VmState :=
  { s with pageTables := fun t i =>
      if t = page.table ∧ i = page.index then pte else s.pageTables t i }

def setTable (s : VmState) (table : Nat) (entries : Nat → BitVec 32) : VmState :=
  { s with pageTables := fun t => if t = table then entries else s.pageTables t }

def setDirectory (s : VmState) (pd : Nat) (d : PageDirectory) : VmState :=
  { s with pageDirectories := fun p => if p = pd then d else s.pageDirectories p }

def setPde (s : VmState) (pd i table : Nat) (pde : BitVec 32) : VmState :=
  let d := s.pageDirectories pd
  s.setDirectory pd
    { d with
      entries := fun k => if k = i then pde else d.entries k
      tables := fun k => if k = i then table else d.tables k }

end VmState

-- ---------------------------------------------------------------------------
-- Allocation of kernel memory
-- ---------------------------------------------------------------------------

def pdIndex (vaddr : Nat) : Nat := vaddr >>> 22

def ptIndex (vaddr : Nat) : Nat := (vaddr >>> 12) &&& 0x03FF

/-- `get_page(vaddr, pd, false)`. -/
def findPage (vaddr pd : Nat) (s : VmState) : Slot :=
  let table := (s.pageDirectories pd).tables (pdIndex vaddr)
  if table = 0 then .null else ⟨table, ptIndex vaddr⟩

def kernelPhys (vaddr : Nat) (s : VmState) : BitVec 32 :=
  (s.entry (findPage vaddr s.kernelPd s) &&& 0xFFFFF000) + (BitVec.ofNat 32 vaddr &&& 0xFFF)

/-- The address, and what goes to `*paddr` for a caller that wants it. -/
def ikmalloc (size : Nat) (pageAlign : Bool) (s : VmState) :
    Option (Nat × BitVec 32 × VmState) :=
  match s.kheap with
  | some kheap => do
    let (vaddr, kheap) ← Vm.KHeap.ikmalloc size pageAlign kheap
    let held := if vaddr = 0 then s.held else ⟨vaddr - headerSize, size⟩ :: s.held
    some (vaddr, kernelPhys vaddr s, { s with kheap := some kheap, held := held })
  | none =>
    let temp := if pageAlign then align s.placementAddress frameSize else s.placementAddress
    some (temp, BitVec.ofNat 32 temp,
      { s with placementAddress := add32 temp size, placed := s.placed ++ [⟨temp, size⟩] })

-- ---------------------------------------------------------------------------
-- Pages and frames
-- ---------------------------------------------------------------------------

/-- `NULL` if there is no table and none is made. -/
def getPage (vaddr pd : Nat) (create : Bool) (s : VmState) : Option (Slot × VmState) :=
  if (s.pageDirectories pd).tables (pdIndex vaddr) = 0 then
    if !create then some (.null, s)
    else do
      let (newTable, paddr, s) ← ikmalloc pageTableSize true s
      if newTable = 0 then some (.null, s)
      else
        let s := { s.setTable newTable fun _ => pageRw with made := newTable :: s.made }
        some (⟨newTable, ptIndex vaddr⟩,
          s.setPde pd (pdIndex vaddr) newTable (paddr ||| pagePresent ||| pageRw))
  else some (findPage vaddr pd s, s)

def allocFrame (page : Slot) (kernel writable : Bool) (s : VmState) : Option VmState :=
  if pteToPfn (s.entry page) ≠ 0 then some s
  else
    let (pfn, frames) := pmalloc frameSize s.frames
    if pfn = -1 then none
    else
      let pte := BitVec.ofInt 32 pfn <<< 12 ||| pagePresent
      let pte := if !kernel then pte ||| pageUser else pte
      let pte := if writable then pte ||| pageRw else pte
      some ({ s with frames := frames }.setEntry page pte)

def freeFrame (page : Slot) (s : VmState) : VmState :=
  let pfn := pteToPfn (s.entry page)
  if pfn = 0 then s
  else { s with frames := pfree pfn frameSize s.frames }.setEntry page (s.entry page &&& pageRw)

-- ---------------------------------------------------------------------------
-- Clones
-- ---------------------------------------------------------------------------

def copyWords : Nat → Nat → Nat → Mem → Mem
  | 0, _, _, m => m
  | n + 1, src, dst, m => copyWords n (src + 4) (dst + 4) (m.write32 dst (m.read32 src))

def copyPhysicalPage (src dst : Nat) (m : Mem) : Mem := copyWords 1024 src dst m

/-- Clone the flags: those of the source are added. -/
def cloneFlags (src dst : BitVec 32) : BitVec 32 :=
  [pagePresent, pageRw, pageUser, pageAccessed, pageDirty].foldl
    (fun dst flag => if anyOf src flag then dst ||| flag else dst) dst

def cloneEntry (src dst i : Nat) (s : VmState) : Option VmState :=
  if pteToPfn (s.entry ⟨src, i⟩) = 0 then some (s.setEntry ⟨dst, i⟩ pageRw)
  else do
    let s ← allocFrame ⟨dst, i⟩ false false s
    let s := s.setEntry ⟨dst, i⟩ (cloneFlags (s.entry ⟨src, i⟩) (s.entry ⟨dst, i⟩))
    let phys := copyPhysicalPage (pteToPfn (s.entry ⟨src, i⟩) * frameSize)
      (pteToPfn (s.entry ⟨dst, i⟩) * frameSize) s.phys
    some { s with phys := phys }

def cloneEntries (src dst : Nat) : List Nat → VmState → Option VmState
  | [], s => some s
  | i :: is, s => (cloneEntry src dst i s).bind (cloneEntries src dst is)

/-- The clone and its physical address. The memory is used even if `ikmalloc` has
returned `NULL`. -/
def clonePageTable (src : Nat) (s : VmState) : Option (Nat × BitVec 32 × VmState) := do
  let (dst, paddr, s) ← ikmalloc pageTableSize true s
  let s := { s.setTable dst fun _ => 0 with made := dst :: s.made }
  let s ← cloneEntries src dst (List.range ptEntries) s
  some (dst, paddr, s)

/-- Link the table if it is the kernel's, otherwise copy it. -/
def clonePde (src dst i : Nat) (s : VmState) : Option VmState :=
  let d := s.pageDirectories src
  if d.tables i = 0 then some (s.setPde dst i ((s.pageDirectories dst).tables i) pageRw)
  else if d.tables i = (s.pageDirectories s.kernelPd).tables i then
    some (s.setPde dst i (d.tables i) (d.entries i))
  else do
    let (table, paddr, s) ← clonePageTable (d.tables i) s
    some (s.setPde dst i table (paddr ||| pagePresent ||| pageRw ||| pageUser))

def clonePdes (src dst : Nat) : List Nat → VmState → Option VmState
  | [], s => some s
  | i :: is, s => (clonePde src dst i s).bind (clonePdes src dst is)

/-- `entries` is the first field, so its offset is 0. -/
def clonePageDirectory (src : Nat) (s : VmState) : Option (Nat × VmState) := do
  let (dst, paddr, s) ← ikmalloc pageDirectorySize true s
  let s := { s.setDirectory dst ⟨fun _ => 0, fun _ => 0, paddr⟩ with
    directories := dst :: s.directories }
  let s ← clonePdes src dst (List.range pdEntries) s
  some (dst, s)

end Shigure.Paging
