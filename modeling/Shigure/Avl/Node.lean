import Mathlib.Data.Tree.Basic

/-!
# The AVL tree of free blocks

The tree of `vm.c`, read without memory: a pointer to a node is the subtree
below it and `NULL` is `nil`. A cell keeps the address of its node, so that
code which holds on to a pointer can still say which node it means.

`none` is a field access through a `NULL` child. `createNode` takes the
address that `kmalloc` hands out; at most one node is made by an insertion.
-/

namespace Shigure.Avl

/-- The fields of an `avl_node_t` next to its two links. -/
structure Cell where
  addr : Nat
  base : Nat
  size : Nat
  height : Int
  deriving DecidableEq, Repr

abbrev AvlNode := BinaryTree Cell

def createNode (addr base size : Nat) : AvlNode := .node ⟨addr, base, size, 1⟩ .nil .nil

def height : AvlNode → Int
  | .nil => 0
  | .node c _ _ => c.height

def getBalance : AvlNode → Int
  | .nil => 0
  | .node _ l r => height l - height r

def updateHeight (c : Cell) (l r : AvlNode) : Cell :=
  { c with height := 1 + if height l > height r then height l else height r }

/-- The second height is chosen by a comparison with `y->right`, not with
`x->right`. -/
def rotateRight : AvlNode → Option AvlNode
  | .node y (.node x xl t2) yr =>
    let y' := BinaryTree.node (updateHeight y t2 yr) t2 yr
    let h := 1 + if height xl > height yr then height xl else height y'
    some (.node { x with height := h } xl y')
  | _ => none

/-- Here it is the first height that is chosen by a comparison with a child of
the other node. -/
def rotateLeft : AvlNode → Option AvlNode
  | .node x xl (.node y t2 yr) =>
    let h := 1 + if height xl > height yr then height xl else height t2
    let x' := BinaryTree.node { x with height := h } xl t2
    some (.node (updateHeight y x' yr) x' yr)
  | _ => none

-- ---------------------------------------------------------------------------
-- Insertion
-- ---------------------------------------------------------------------------

/-- The way back up of `avl_insert`: the double rotations are picked by
comparing the inserted key with the child's base. -/
def rebalanceInsert (base : Nat) (c : Cell) (l r : AvlNode) : Option AvlNode :=
  let c := updateHeight c l r
  let balance := height l - height r
  if balance > 1 then
    match l with
    | .nil => none
    | .node lc _ _ =>
      if base < lc.base then rotateRight (.node c l r)
      else if base > lc.base then do rotateRight (.node c (← rotateLeft l) r)
      else some (.node c l r)
  else if balance < -1 then
    match r with
    | .nil => none
    | .node rc _ _ =>
      if base > rc.base then rotateLeft (.node c l r)
      else if base < rc.base then do rotateLeft (.node c l (← rotateRight r))
      else some (.node c l r)
  else some (.node c l r)

def avlInsert (addr base size : Nat) (node : AvlNode) : Option AvlNode :=
  if size = 0 then some node else go node
where
  go : AvlNode → Option AvlNode
    | .nil => some (createNode addr base size)
    | .node c l r =>
      if base < c.base then do rebalanceInsert base c (← go l) r
      else if base > c.base then do rebalanceInsert base c l (← go r)
      else some (.node c l r)

-- ---------------------------------------------------------------------------
-- Deletion
-- ---------------------------------------------------------------------------

def findMinBase : AvlNode → Option Cell
  | .nil => none
  | .node c .nil _ => some c
  | .node _ l _ => findMinBase l

def rebalanceDelete (c : Cell) (l r : AvlNode) : Option AvlNode :=
  let c := updateHeight c l r
  let balance := height l - height r
  if balance > 1 ∧ getBalance l ≥ 0 then rotateRight (.node c l r)
  else if balance < -1 ∧ getBalance r ≤ 0 then rotateLeft (.node c l r)
  else if balance > 1 ∧ getBalance l < 0 then do rotateRight (.node c (← rotateLeft l) r)
  else if balance < -1 ∧ getBalance r > 0 then do rotateLeft (.node c l (← rotateRight r))
  else some (.node c l r)

/-- A node with two children keeps its place and takes over the block of its
successor; the node that is unlinked is the successor's. -/
def avlDelete (base : Nat) : AvlNode → Option AvlNode
  | .nil => some .nil
  | .node c l r =>
    if base < c.base then do rebalanceDelete c (← avlDelete base l) r
    else if base > c.base then do rebalanceDelete c l (← avlDelete base r)
    else if l = .nil ∧ r = .nil then some .nil
    else if l = .nil ∨ r = .nil then some (if l ≠ .nil then l else r)
    else do
      let temp ← findMinBase r
      rebalanceDelete { c with base := temp.base, size := temp.size } l (← avlDelete temp.base r)

-- ---------------------------------------------------------------------------
-- Search
-- ---------------------------------------------------------------------------

/-- The left subtree is only looked at below a node that is large enough, the
right one only below a node that is not. -/
def findBestFit (size : Nat) : AvlNode → Option Cell
  | .nil => none
  | .node c l r =>
    if c.size ≥ size then
      match findBestFit size l with
      | some best => if best.size < c.size then some best else some c
      | none => some c
    else findBestFit size r

end Shigure.Avl
