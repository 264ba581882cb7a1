import Mathlib.Data.Tree.Basic
import Shigure.Lib.KeyList

/-!
# The in-order sequence of a binary tree
-/

namespace Shigure

def inorder : BinaryTree α → List α
  | .nil => []
  | .node v l r => inorder l ++ v :: inorder r

@[simp] theorem inorder_nil : inorder (.nil : BinaryTree α) = [] := rfl

@[simp] theorem inorder_node {v : α} {l r : BinaryTree α} :
    inorder (.node v l r) = inorder l ++ v :: inorder r := rfl

end Shigure
