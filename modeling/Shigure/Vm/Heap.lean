import Shigure.Avl.Node
import Shigure.Lib.Bytes
import Shigure.Lib.Span
import Shigure.Lib.Word

/-!
# A heap whose tree nodes live elsewhere

The heap of `vm.c` for a `heap_t` other than the kernel's own: the tree nodes
are not in the area that the heap manages, so the tree is a value, and memory
holds the block headers. Where `create_node` is called, the address that it
gets from `kmalloc` is a parameter. Additions and subtractions wrap.

`none` is a rotation that meets a missing child.
-/

namespace Shigure.Vm

open Avl

def pageSize : Nat := 0x1000

/-- `sizeof(header_t)`: the magic number and the size of the block. -/
def headerSize : Nat := 8

def heapMagic : Nat := 0x5AFE205E

structure Heap where
  root : AvlNode
  startAddr : Nat
  endAddr : Nat
  maxSize : Nat
  supervisor : Bool
  readonly : Bool

/-- A call of `alloc_frame(get_page(vaddr, kernel_pd, true), kernel, writable)`. -/
structure PageRequest where
  vaddr : Nat
  kernel : Bool
  writable : Bool
  deriving DecidableEq, Repr

/-- What `heap_free` and `ifree` print when they refuse. -/
inductive Message
  | invalidFreeRequest (base size : Nat)
  | overlappingFree (base size : Nat)
  | invalidMagicNumber
  deriving DecidableEq, Repr

structure HeapState where
  heap : Heap
  mem : Mem
  pages : List PageRequest

def HeapState.setRoot (s : HeapState) (root : AvlNode) : HeapState :=
  { s with heap := { s.heap with root := root } }

def HeapState.storeHeader (s : HeapState) (addr size : Nat) : HeapState :=
  { s with mem := (s.mem.write32 addr heapMagic).write32 (addr + 4) size }

/-- A block that a heap has handed out, by the address of its header. -/
structure Block where
  header : Nat
  size : Nat
  deriving DecidableEq, Repr

def Block.ptr (b : Block) : Nat := b.header + headerSize

def Block.span (b : Block) : Span := ⟨b.header, b.size + headerSize⟩

theorem Block.span_injective : Function.Injective Block.span := by
  rintro ⟨h, n⟩ ⟨h', n'⟩ he
  simp only [Block.span, Span.mk.injEq] at he
  rw [Block.mk.injEq]
  omega

-- ---------------------------------------------------------------------------
-- The area
-- ---------------------------------------------------------------------------

def heapInit (node startAddr endAddr maxSize : Nat) (supervisor readonly : Bool) (mem : Mem) :
    Option HeapState := do
  let startAddr := align startAddr pageSize
  let endAddr := align endAddr pageSize
  let root ← avlInsert node startAddr (sub32 endAddr startAddr) .nil
  some ⟨⟨root, startAddr, endAddr, maxSize, supervisor, readonly⟩, mem, []⟩

/-- `while (temp_end_addr < new_end_addr)`, one page a round. -/
def mapPages (heap : Heap) (newEndAddr : Nat) : Nat → Nat → List PageRequest
  | 0, _ => []
  | fuel + 1, tempEndAddr =>
    if tempEndAddr < newEndAddr then
      ⟨tempEndAddr, heap.supervisor, !heap.readonly⟩ ::
        mapPages heap newEndAddr fuel (add32 tempEndAddr pageSize)
    else []

/-- The new size of the heap area, or 0 if it would pass the maximum. -/
def expandHeap (size : Nat) (s : HeapState) : Nat × HeapState :=
  let heap := s.heap
  let newEndAddr := align (add32 heap.endAddr size) pageSize
  if newEndAddr > add32 heap.startAddr heap.maxSize then (0, s)
  else
    (sub32 newEndAddr heap.startAddr,
      { s with
        heap := { heap with endAddr := newEndAddr }
        pages := s.pages ++ mapPages heap newEndAddr (wordSize / pageSize) heap.endAddr })

-- ---------------------------------------------------------------------------
-- Allocation
-- ---------------------------------------------------------------------------

def setBlock (addr base size : Nat) (t : AvlNode) : AvlNode :=
  t.map fun c => if c.addr = addr then { c with base := base, size := size } else c

/-- `ALIGN(addr + sizeof(header_t), PAGE_SIZE) - sizeof(header_t)`: a header
here puts the block behind it on a page. -/
def alignHeader (addr : Nat) : Nat :=
  sub32 (align (add32 addr headerSize) pageSize) headerSize

/-- Where the block is put, the tree so far, and what is left of the best fit. -/
structure Placed where
  allocAddr : Nat
  root : AvlNode
  base : Nat
  size : Nat

def insertFragment (node base alignmentOffset : Nat) (root : AvlNode) : Option AvlNode :=
  if alignmentOffset > headerSize then avlInsert node base alignmentOffset root else some root

/-- Cut the request from the best fit, which still has its old base when the
fragment before it is inserted. -/
def place (node : Nat) (pageAlign : Bool) (size : Nat) (bestFit : Cell) (root : AvlNode) :
    Option Placed :=
  if pageAlign ∧ bestFit.base % pageSize ≠ pageSize - headerSize then do
    let alignedAddr := alignHeader bestFit.base
    let alignmentOffset := sub32 alignedAddr bestFit.base
    let root ← insertFragment node bestFit.base alignmentOffset root
    some ⟨alignedAddr, root, add32 (add32 alignedAddr headerSize) size,
      sub32 bestFit.size (add32 (add32 alignmentOffset headerSize) size)⟩
  else
    some ⟨bestFit.base, root, add32 bestFit.base (add32 size headerSize),
      sub32 bestFit.size (add32 size headerSize)⟩

/-- The size to search for: with the largest possible alignment offset when the
block has to be on a page. -/
def wanted (pageAlign : Bool) (size : Nat) : Nat :=
  if pageAlign then add32 (add32 size (pageSize - 1)) headerSize else add32 size headerSize

def removeUsed (base size : Nat) (root : AvlNode) : Option AvlNode :=
  if size = 0 then avlDelete base root else some root

def heapAlloc (node : Nat) (pageAlign : Bool) (size : Nat) (s : HeapState) :
    Option (Nat × HeapState) :=
  match findBestFit (wanted pageAlign size) s.heap.root with
  | none =>
    let allocAddr := if pageAlign then alignHeader s.heap.endAddr else s.heap.endAddr
    let (total, s) :=
      expandHeap (add32 (add32 (sub32 allocAddr s.heap.endAddr) headerSize) size) s
    if total = 0 then some (0, s)
    else some (add32 allocAddr headerSize, s.storeHeader allocAddr size)
  | some bestFit => do
    let placed ← place node pageAlign size bestFit s.heap.root
    let root ← removeUsed placed.base placed.size
      (setBlock bestFit.addr placed.base placed.size placed.root)
    some (add32 placed.allocAddr headerSize, (s.setRoot root).storeHeader placed.allocAddr size)

-- ---------------------------------------------------------------------------
-- Release
-- ---------------------------------------------------------------------------

/-- The three ways in which the range being freed and a free block overlap. -/
def Overlaps (base size : Nat) (c : Cell) : Prop :=
  (base ≥ c.base ∧ base < add32 c.base c.size) ∨
  (add32 base size > c.base ∧ add32 base size ≤ add32 c.base c.size) ∨
  (base < c.base ∧ add32 base size > add32 c.base c.size)

instance : Decidable (Overlaps base size c) := inferInstanceAs (Decidable (_ ∨ _))

def overlapFound (base size : Nat) : AvlNode → Bool
  | .nil => false
  | .node c l r =>
    if Overlaps base size c then true
    else if base < c.base then overlapFound base size l
    else overlapFound base size r

def noteNeighbor (base size : Nat) (current : Cell) (left right : Option Cell) :
    Option Cell × Option Cell :=
  if add32 current.base current.size = base then (some current, right)
  else if add32 base size = current.base then (left, some current)
  else (left, right)

/-- The second loop: the free blocks right before and right behind the range,
as far as they are on the search path. -/
def findNeighbors (base size : Nat) :
    AvlNode → Option Cell → Option Cell → Option Cell × Option Cell
  | .nil, left, right => (left, right)
  | .node c l r, left, right =>
    let (left, right) := noteNeighbor base size c left right
    if left.isSome ∧ right.isSome then (left, right)
    else if base < c.base then findNeighbors base size l left right
    else findNeighbors base size r left right

def mergeLeft (left : Option Cell) (base size : Nat) (root : AvlNode) :
    Option (Nat × Nat × AvlNode) :=
  match left with
  | some l => do some (l.base, add32 size l.size, ← avlDelete l.base root)
  | none => some (base, size, root)

/-- A node that `avl_delete` unlinks keeps its fields, so the right neighbour
is used as it was found. -/
def mergeRight (right : Option Cell) (size : Nat) (root : AvlNode) : Option (Nat × AvlNode) :=
  match right with
  | some r => do some (add32 size r.size, ← avlDelete r.base root)
  | none => some (size, root)

def heapFree (node base size : Nat) (s : HeapState) : Option (Option Message × HeapState) :=
  if size = 0 ∨ base < s.heap.startAddr ∨ add32 base size > s.heap.endAddr then
    some (some (.invalidFreeRequest base size), s)
  else if overlapFound base size s.heap.root then
    some (some (.overlappingFree base size), s)
  else do
    let (left, right) := findNeighbors base size s.heap.root none none
    let (base, size, root) ← mergeLeft left base size s.heap.root
    let (size, root) ← mergeRight right size root
    some (none, s.setRoot (← avlInsert node base size root))

def imalloc (node size : Nat) (pageAlign : Bool) (s : HeapState) : Option (Nat × HeapState) :=
  heapAlloc node pageAlign size s

def ifree (node ptr : Nat) (s : HeapState) : Option (Option Message × HeapState) :=
  if ptr = 0 then some (none, s)
  else
    let header := sub32 ptr headerSize
    if s.mem.read32 header ≠ heapMagic then some (some .invalidMagicNumber, s)
    else heapFree node header (add32 (s.mem.read32 (header + 4)) headerSize) s

end Shigure.Vm
