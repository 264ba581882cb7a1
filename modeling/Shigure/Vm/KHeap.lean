import Shigure.Vm.Heap

/-!
# The kernel heap

The same code on `kheap`, which holds its own tree nodes: `create_node` gets
their storage from `kmalloc`, in the middle of an insertion into the tree that
this allocation works on. Here the tree is in memory, a node is its address,
and every link is read and written where the code does it.

`none` is a field access through `NULL`, where the code goes wrong; the fuel of
the recursions and loops is the size of the address space. `nodes` is not in the
program: it collects the blocks that `create_node` has got.
-/

namespace Shigure.Vm.KHeap

open Avl (Cell)

-- ---------------------------------------------------------------------------
-- Nodes in memory
-- ---------------------------------------------------------------------------

def nodeSize : Nat := 20

structure AvlNode where
  base : Nat
  size : Nat
  height : Int
  left : Nat
  right : Nat
  deriving DecidableEq, Repr

def load (m : Mem) (p : Nat) : AvlNode :=
  ⟨m.read32 p, m.read32 (p + 4), intOfWord (m.read32 (p + 8)), m.read32 (p + 12),
    m.read32 (p + 16)⟩

def setBase (m : Mem) (p v : Nat) : Mem := m.write32 p v

def setSize (m : Mem) (p v : Nat) : Mem := m.write32 (p + 4) v

def setHeight (m : Mem) (p : Nat) (h : Int) : Mem := m.write32 (p + 8) (wordOfInt h)

def setLeft (m : Mem) (p v : Nat) : Mem := m.write32 (p + 12) v

def setRight (m : Mem) (p v : Nat) : Mem := m.write32 (p + 16) v

def height (m : Mem) (node : Nat) : Int := if node ≠ 0 then (load m node).height else 0

def getBalance (m : Mem) (node : Nat) : Int :=
  if node ≠ 0 then height m (load m node).left - height m (load m node).right else 0

/-- `1 + max`, as the code writes it. -/
def taller (a b : Int) : Int := 1 + if a > b then a else b

def updateHeight (m : Mem) (p : Nat) : Mem :=
  setHeight m p (taller (height m (load m p).left) (height m (load m p).right))

def rotateRight (m : Mem) (y : Nat) : Option (Mem × Nat) :=
  let x := (load m y).left
  if x = 0 then none
  else
    let t2 := (load m x).right
    let m := setRight m x y
    let m := setLeft m y t2
    let m := updateHeight m y
    let xl := height m (load m x).left
    let m := setHeight m x
      (1 + if xl > height m (load m y).right then xl else height m (load m x).right)
    some (m, x)

def rotateLeft (m : Mem) (x : Nat) : Option (Mem × Nat) :=
  let y := (load m x).right
  if y = 0 then none
  else
    let t2 := (load m y).left
    let m := setLeft m y x
    let m := setRight m x t2
    let xl := height m (load m x).left
    let m := setHeight m x
      (1 + if xl > height m (load m y).right then xl else height m (load m x).right)
    some (updateHeight m y, y)

-- ---------------------------------------------------------------------------
-- Deletion and search
-- ---------------------------------------------------------------------------

def findMinBase (m : Mem) : Nat → Nat → Option Nat
  | 0, _ => none
  | fuel + 1, node =>
    if (load m node).left ≠ 0 then findMinBase m fuel (load m node).left else some node

def rebalanceDelete (m : Mem) (root : Nat) : Option (Mem × Nat) :=
  let m := updateHeight m root
  let l := (load m root).left
  let r := (load m root).right
  let balance := height m l - height m r
  if balance > 1 ∧ getBalance m l ≥ 0 then rotateRight m root
  else if balance < -1 ∧ getBalance m r ≤ 0 then rotateLeft m root
  else if balance > 1 ∧ getBalance m l < 0 then do
    let (m, l) ← rotateLeft m l
    rotateRight (setLeft m root l) root
  else if balance < -1 ∧ getBalance m r > 0 then do
    let (m, r) ← rotateRight m r
    rotateLeft (setRight m root r) root
  else some (m, root)

def avlDelete (base : Nat) : Nat → Mem → Nat → Option (Mem × Nat)
  | 0, _, _ => none
  | fuel + 1, m, root =>
    if root = 0 then some (m, root)
    else
      let node := load m root
      if base < node.base then do
        let (m, l) ← avlDelete base fuel m node.left
        rebalanceDelete (setLeft m root l) root
      else if base > node.base then do
        let (m, r) ← avlDelete base fuel m node.right
        rebalanceDelete (setRight m root r) root
      else if node.left = 0 ∧ node.right = 0 then some (m, 0)
      else if node.left = 0 ∨ node.right = 0 then
        some (m, if node.left ≠ 0 then node.left else node.right)
      else do
        let temp ← findMinBase m fuel node.right
        let m := setBase m root (load m temp).base
        let m := setSize m root (load m temp).size
        let (m, r) ← avlDelete (load m temp).base fuel m (load m root).right
        rebalanceDelete (setRight m root r) root

/-- The address of the best fit, 0 if there is none. -/
def findBestFit (size : Nat) (m : Mem) : Nat → Nat → Option Nat
  | 0, _ => none
  | fuel + 1, node =>
    if node = 0 then some 0
    else if (load m node).size ≥ size then do
      let leftBest ← findBestFit size m fuel (load m node).left
      some (if leftBest ≠ 0 ∧ (load m leftBest).size < (load m node).size then leftBest else node)
    else findBestFit size m fuel (load m node).right

-- ---------------------------------------------------------------------------
-- Allocation
-- ---------------------------------------------------------------------------

structure KState where
  mem : Mem
  root : Nat
  startAddr : Nat
  endAddr : Nat
  maxSize : Nat
  supervisor : Bool
  readonly : Bool
  pages : List PageRequest
  nodes : List Block

def fuel : Nat := wordSize

/-- The heap with a tree as a value. -/
def KState.view (s : KState) (t : Avl.AvlNode) : HeapState :=
  ⟨⟨t, s.startAddr, s.endAddr, s.maxSize, s.supervisor, s.readonly⟩, s.mem, s.pages⟩

/-- `expand_heap` does not look at the tree. -/
def expandHeap (size : Nat) (s : KState) : Nat × KState :=
  let (total, h) := Vm.expandHeap size (s.view .nil)
  (total, { s with endAddr := h.heap.endAddr, pages := h.pages })

def KState.storeHeader (s : KState) (addr size : Nat) : KState :=
  { s with mem := (s.mem.write32 addr heapMagic).write32 (addr + 4) size }

def removeUsed (bestFit : Nat) (s : KState) : Option KState :=
  if (load s.mem bestFit).size = 0 then do
    let (m, root) ← avlDelete (load s.mem bestFit).base fuel s.mem s.root
    some { s with mem := m, root := root }
  else some s

def shrink (bestFit base used : Nat) (s : KState) : Option KState :=
  let m := setBase s.mem bestFit base
  let m := setSize m bestFit (sub32 (load m bestFit).size used)
  removeUsed bestFit { s with mem := m }

def insertFragment (insert : KState → Nat → Nat → Nat → Option (KState × Nat))
    (base alignmentOffset : Nat) (s : KState) : Option KState :=
  if alignmentOffset > headerSize then do
    let (s, root) ← insert s s.root base alignmentOffset
    some { s with root := root }
  else some s

/-- `heap_alloc` over an `avl_insert`, which it only needs for a fragment before
an aligned block. -/
def heapAllocWith (insert : KState → Nat → Nat → Nat → Option (KState × Nat)) (pageAlign : Bool)
    (size : Nat) (s : KState) : Option (Nat × KState) := do
  let bestFit ← findBestFit (wanted pageAlign size) s.mem fuel s.root
  if bestFit = 0 then
    let allocAddr := if pageAlign then alignHeader s.endAddr else s.endAddr
    let (total, s) := expandHeap (add32 (add32 (sub32 allocAddr s.endAddr) headerSize) size) s
    if total = 0 then some (0, s)
    else some (add32 allocAddr headerSize, s.storeHeader allocAddr size)
  else
    let allocAddr := (load s.mem bestFit).base
    if pageAlign ∧ allocAddr % pageSize ≠ pageSize - headerSize then
      let alignedAddr := alignHeader allocAddr
      let alignmentOffset := sub32 alignedAddr allocAddr
      let s ← insertFragment insert allocAddr alignmentOffset s
      let s ← shrink bestFit (add32 (add32 alignedAddr headerSize) size)
        (add32 (add32 alignmentOffset headerSize) size) s
      some (add32 alignedAddr headerSize, s.storeHeader alignedAddr size)
    else
      let s ← shrink bestFit (add32 allocAddr (add32 size headerSize)) (add32 size headerSize) s
      some (add32 allocAddr headerSize, s.storeHeader allocAddr size)

/-- `kmalloc`: without alignment no fragment is ever inserted. -/
def kmalloc (size : Nat) (s : KState) : Option (Nat × KState) :=
  heapAllocWith (fun _ _ _ _ => none) false size s

def initNode (m : Mem) (node base size : Nat) : Mem :=
  let m := setBase m node base
  let m := setSize m node size
  let m := setHeight m node 1
  let m := setRight m node 0
  setLeft m node 0

/-- The fields are written even if `kmalloc` has returned `NULL`. -/
def createNode (base size : Nat) (s : KState) : Option (KState × Nat) := do
  let (node, s) ← kmalloc nodeSize s
  let nodes := if node = 0 then s.nodes else ⟨node - headerSize, nodeSize⟩ :: s.nodes
  some ({ s with mem := initNode s.mem node base size, nodes := nodes }, node)

-- ---------------------------------------------------------------------------
-- Insertion
-- ---------------------------------------------------------------------------

def rebalanceInsert (base : Nat) (m : Mem) (node : Nat) : Option (Mem × Nat) :=
  let m := updateHeight m node
  let l := (load m node).left
  let r := (load m node).right
  let balance := height m l - height m r
  if balance > 1 then
    if l = 0 then none
    else if base < (load m l).base then rotateRight m node
    else if base > (load m l).base then do
      let (m, l) ← rotateLeft m l
      rotateRight (setLeft m node l) node
    else some (m, node)
  else if balance < -1 then
    if r = 0 then none
    else if base > (load m r).base then rotateLeft m node
    else if base < (load m r).base then do
      let (m, r) ← rotateRight m r
      rotateLeft (setRight m node r) node
    else some (m, node)
  else some (m, node)

def avlInsert (base size : Nat) : Nat → KState → Nat → Option (KState × Nat)
  | 0, _, _ => none
  | fuel + 1, s, node =>
    if size = 0 then some (s, node)
    else if node = 0 then createNode base size s
    else if base < (load s.mem node).base then do
      let (s, l) ← avlInsert base size fuel s (load s.mem node).left
      let (m, node) ← rebalanceInsert base (setLeft s.mem node l) node
      some ({ s with mem := m }, node)
    else if base > (load s.mem node).base then do
      let (s, r) ← avlInsert base size fuel s (load s.mem node).right
      let (m, node) ← rebalanceInsert base (setRight s.mem node r) node
      some ({ s with mem := m }, node)
    else some (s, node)

def heapAlloc (pageAlign : Bool) (size : Nat) (s : KState) : Option (Nat × KState) :=
  heapAllocWith (fun s node base size => avlInsert base size fuel s node) pageAlign size s

def heapSize : Nat := 20

/-- `heap_init` of `kheap` itself: as long as there is no `kheap`, `kmalloc`
hands out what follows `placement_address`, first to the `heap_t` and then to
the node of the free block. -/
def heapInit (placementAddress startAddr endAddr maxSize : Nat) (supervisor readonly : Bool)
    (mem : Mem) : KState :=
  let startAddr := align startAddr pageSize
  let endAddr := align endAddr pageSize
  let size := sub32 endAddr startAddr
  let node := add32 placementAddress heapSize
  if size = 0 then ⟨mem, 0, startAddr, endAddr, maxSize, supervisor, readonly, [], []⟩
  else
    ⟨initNode mem node startAddr size, node, startAddr, endAddr, maxSize, supervisor, readonly, [], []⟩

def kheapStart : Nat := 0xC0000000

def kheapInitialSize : Nat := 0x100000

def kheapMaxSize : Nat := 0xCFFFF000

def kheapInit (placementAddress : Nat) (mem : Mem) : KState :=
  heapInit placementAddress kheapStart (kheapStart + kheapInitialSize) kheapMaxSize false false mem

/-- `ikmalloc` once there is a `kheap`; nothing here asks for the physical
address. -/
def ikmalloc (size : Nat) (pageAlign : Bool) (s : KState) : Option (Nat × KState) :=
  heapAlloc pageAlign size s

-- ---------------------------------------------------------------------------
-- Release
-- ---------------------------------------------------------------------------

def cellAt (m : Mem) (p : Nat) : Cell := ⟨p, (load m p).base, (load m p).size, (load m p).height⟩

def overlapFound (base size : Nat) (m : Mem) : Nat → Nat → Option Bool
  | 0, _ => none
  | fuel + 1, current =>
    if current = 0 then some false
    else if Overlaps base size (cellAt m current) then some true
    else if base < (load m current).base then overlapFound base size m fuel (load m current).left
    else overlapFound base size m fuel (load m current).right

def findNeighbors (base size : Nat) (m : Mem) : Nat → Nat → Nat → Nat → Option (Nat × Nat)
  | 0, _, _, _ => none
  | fuel + 1, current, left, right =>
    if current = 0 then some (left, right)
    else
      let node := load m current
      let (left, right) :=
        if add32 node.base node.size = base then (current, right)
        else if add32 base size = node.base then (left, current)
        else (left, right)
      if left ≠ 0 ∧ right ≠ 0 then some (left, right)
      else if base < node.base then findNeighbors base size m fuel node.left left right
      else findNeighbors base size m fuel node.right left right

def mergeLeft (left base size : Nat) (s : KState) : Option (Nat × Nat × KState) :=
  if left ≠ 0 then do
    let l := load s.mem left
    let (m, root) ← avlDelete l.base fuel s.mem s.root
    some (l.base, add32 size l.size, { s with mem := m, root := root })
  else some (base, size, s)

def mergeRight (right size : Nat) (s : KState) : Option (Nat × KState) :=
  if right ≠ 0 then do
    let r := load s.mem right
    let (m, root) ← avlDelete r.base fuel s.mem s.root
    some (add32 size r.size, { s with mem := m, root := root })
  else some (size, s)

def mergeNeighbors (base size : Nat) (s : KState) : Option (Nat × Nat × KState) := do
  let (left, right) ← findNeighbors base size s.mem fuel s.root 0 0
  let (base, size, s) ← mergeLeft left base size s
  let (size, s) ← mergeRight right size s
  some (base, size, s)

def heapFree (base size : Nat) (s : KState) : Option (Option Message × KState) :=
  if size = 0 ∨ base < s.startAddr ∨ add32 base size > s.endAddr then
    some (some (.invalidFreeRequest base size), s)
  else do
    if ← overlapFound base size s.mem fuel s.root then
      some (some (.overlappingFree base size), s)
    else
      let (base, size, s) ← mergeNeighbors base size s
      let (s, root) ← avlInsert base size fuel s s.root
      some (none, { s with root := root })

def kfree (ptr : Nat) (s : KState) : Option (Option Message × KState) :=
  if ptr = 0 then some (none, s)
  else
    let header := sub32 ptr headerSize
    if s.mem.read32 header ≠ heapMagic then some (some .invalidMagicNumber, s)
    else heapFree header (add32 (s.mem.read32 (header + 4)) headerSize) s

end Shigure.Vm.KHeap
