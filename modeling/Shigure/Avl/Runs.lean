import Shigure.Avl.Shape

/-!
# Runs of tree calls

Any sequence of `avl_insert` and `avl_delete` from the empty tree. Two things
an AVL tree should give do not survive such a sequence: the shape, and with it
that no rotation meets a missing child. Both hold along the sequences that
stay clear of the wrong heights.
-/

namespace Shigure.Avl

inductive TreeCall
  | insert (addr base size : Nat)
  | delete (base : Nat)
  deriving DecidableEq, Repr

def TreeCall.apply (t : AvlNode) : TreeCall → Option AvlNode
  | .insert addr base size => avlInsert addr base size t
  | .delete base => avlDelete base t

def TreeCall.Legal (_ : AvlNode) : TreeCall → Prop
  | .insert _ _ size => size ≠ 0
  | .delete _ => True

/-- The call makes no rotation that stores a wrong height. -/
def TreeCall.Exact (t : AvlNode) : TreeCall → Prop
  | .insert _ base size => size ≠ 0 ∧ InsertLevel base t
  | .delete base => DeleteLevel base t

/-- An insertion finds its search path level; deletions need nothing. -/
def TreeCall.Safe (t : AvlNode) : TreeCall → Prop
  | .insert _ base size => size ≠ 0 ∧ PathLevel base t
  | .delete _ => True

-- ---------------------------------------------------------------------------
-- The predicates can be evaluated
-- ---------------------------------------------------------------------------

instance : Decidable (Level c l r) := by
  unfold Level
  infer_instance

instance : Decidable (LeftRightRight base t) := by
  unfold LeftRightRight
  split <;> infer_instance

instance : Decidable (RightLeftRight base t) := by
  unfold RightLeftRight
  split <;> infer_instance

instance : Decidable (RightExact t) := by
  unfold RightExact
  infer_instance

instance : Decidable (LeftExact t) := by
  unfold LeftExact
  infer_instance

instance decAvlShape : (t : AvlNode) → Decidable (AvlShape t)
  | .nil => isTrue trivial
  | .node c l r => by
    have := decAvlShape l
    have := decAvlShape r
    unfold AvlShape
    infer_instance

instance decPathLevel (base : Nat) : (t : AvlNode) → Decidable (PathLevel base t)
  | .nil => isTrue trivial
  | .node c l r => by
    have := decPathLevel base l
    have := decPathLevel base r
    unfold PathLevel
    infer_instance

instance decGrows (base : Nat) : (t : AvlNode) → Decidable (Grows base t)
  | .nil => isTrue trivial
  | .node c l r => by
    have := decGrows base l
    have := decGrows base r
    unfold Grows
    infer_instance

instance decInsertLevel (base : Nat) : (t : AvlNode) → Decidable (InsertLevel base t)
  | .nil => isTrue trivial
  | .node c l r => by
    have := decInsertLevel base l
    have := decInsertLevel base r
    unfold InsertLevel
    infer_instance

instance decShrinks (base : Nat) : (t : AvlNode) → Decidable (Shrinks base t)
  | .nil => isFalse id
  | .node c l r => by
    have := decShrinks base l
    have := fun base => decShrinks base r
    unfold Shrinks
    cases findMinBase r <;> infer_instance

instance decDeleteLevel (base : Nat) : (t : AvlNode) → Decidable (DeleteLevel base t)
  | .nil => isTrue trivial
  | .node c l r => by
    have := decDeleteLevel base l
    have := fun base => decDeleteLevel base r
    unfold DeleteLevel
    cases findMinBase r <;> infer_instance

instance : Decidable (TreeCall.Legal t call) := by
  cases call <;> unfold TreeCall.Legal <;> infer_instance

instance : Decidable (TreeCall.Exact t call) := by
  cases call <;> unfold TreeCall.Exact <;> infer_instance

instance : Decidable (TreeCall.Safe t call) := by
  cases call <;> unfold TreeCall.Safe <;> infer_instance

-- ---------------------------------------------------------------------------
-- The shape
-- ---------------------------------------------------------------------------

theorem apply_isAvl (ha : IsAvl t) (hok : call.Exact t) :
    ∃ t', TreeCall.apply t call = some t' ∧ IsAvl t' := by
  cases call with
  | insert addr base size =>
    obtain ⟨t', ht', -, h⟩ := insert_go_path addr size ha.positive (ha.path base)
    exact ⟨t', by rw [TreeCall.apply, avlInsert, if_neg hok.1, ht'], h ha hok.2⟩
  | delete base =>
    obtain ⟨t', ht', h, -⟩ := avlDelete_isAvl ha hok
    exact ⟨t', ht', h⟩

/-- From the empty tree, calls whose rotations are all exact keep the shape of
an AVL tree. -/
theorem shape_of_exact_calls (h : Reach TreeCall.Exact TreeCall.apply .nil t) : AvlShape t := by
  refine isAvl_iff.mp (h.invariant IsAvl trivial ?_)
  intro t call t' ha hok hs
  obtain ⟨u, hu, hau⟩ := apply_isAvl ha hok
  obtain rfl : u = t' := Option.some.inj (hu.symm.trans hs)
  exact hau

theorem shape_of_exact_calls_three :
    ∃ t, exec TreeCall.Exact TreeCall.apply .nil
        [.insert 1 30 8, .insert 2 20 8, .insert 3 10 8, .delete 30] = some t ∧ AvlShape t := by
  refine ⟨_, rfl, shape_of_exact_calls (Reach.of_exec
    [.insert 1 30 8, .insert 2 20 8, .insert 3 10 8, .delete 30] ?_)⟩
  decide

/-- Six insertions are enough to store a wrong height: the last one rotates
twice around the node of base 30, which leans right. -/
theorem shape_lost : ¬ ∀ t, Reach TreeCall.Legal TreeCall.apply .nil t → AvlShape t := by
  refine Reach.refute [.insert 1 50 8, .insert 2 20 8, .insert 3 60 8, .insert 4 10 8,
    .insert 5 30 8, .insert 6 40 8] ?_
  decide

-- ---------------------------------------------------------------------------
-- Missing children
-- ---------------------------------------------------------------------------

theorem apply_some (hp : Positive t) (hok : call.Safe t) :
    ∃ t', TreeCall.apply t call = some t' ∧ Positive t' := by
  cases call with
  | insert addr base size =>
    obtain ⟨t', ht', -⟩ := insert_go_path addr size hp hok.2
    exact ⟨t', by rw [TreeCall.apply, avlInsert, if_neg hok.1, ht'], insert_go_positive hp ht'⟩
  | delete base => exact avlDelete_some hp base

/-- No rotation meets a missing child as long as every insertion finds its
search path level. -/
theorem rotations_have_children (h : Reach TreeCall.Safe TreeCall.apply .nil t)
    (hok : TreeCall.Safe t call) : (TreeCall.apply t call).isSome := by
  have hp : Positive t := by
    refine h.invariant Positive trivial ?_
    intro t call t' hp hok hs
    obtain ⟨u, hu, hpu⟩ := apply_some hp hok
    obtain rfl : u = t' := Option.some.inj (hu.symm.trans hs)
    exact hpu
  obtain ⟨t', ht', -⟩ := apply_some hp hok
  rw [ht']
  rfl

theorem rotations_have_children_three :
    ∃ t, exec TreeCall.Safe TreeCall.apply .nil [.insert 1 30 8, .insert 2 20 8] = some t ∧
      (TreeCall.apply t (.insert 3 10 8)).isSome := by
  refine ⟨_, rfl, rotations_have_children
    (Reach.of_exec [.insert 1 30 8, .insert 2 20 8] ?_) ?_⟩ <;> decide

/-- Eleven insertions are enough: the last one finds the left side stored too
tall at a node below which the key went right, and turns a left child that has
no right child. -/
theorem missing_child_met :
    ¬ ∀ t, Reach TreeCall.Legal TreeCall.apply .nil t →
      ∀ call, TreeCall.Legal t call → (TreeCall.apply t call).isSome := by
  intro h
  have hlast : ¬ ∀ t, Reach TreeCall.Legal TreeCall.apply .nil t →
      (TreeCall.apply t (.insert 11 6 8)).isSome := by
    refine Reach.refute [.insert 1 1 8, .insert 2 10 8, .insert 3 9 8, .insert 4 2 8,
      .insert 5 3 8, .insert 6 4 8, .insert 7 5 8, .insert 8 7 8, .insert 9 8 8,
      .insert 10 0 8] ?_
    decide
  exact hlast fun t ht => h t ht _ (Nat.succ_ne_zero 7)

-- ---------------------------------------------------------------------------
-- A finite map, whatever the heights
-- ---------------------------------------------------------------------------

/-- What the tree is for: `t'` holds the blocks `xs`, each at its place. -/
structure Holds (t' : AvlNode) (xs : List Span) : Prop where
  ordered : Ordered t'
  positive : Positive t'
  spans : spans t' = xs

/-- Deletion completes on every tree and insertion on the balanced ones; on any
tree on which they complete they are the operations of a finite map. -/
theorem calls_are_map (ho : Ordered t) (hp : Positive t) :
    (∀ base, (avlDelete base t).isSome) ∧
    (AvlShape t → ∀ addr base size, 0 < size → (avlInsert addr base size t).isSome) ∧
    (∀ base t', avlDelete base t = some t' →
      Holds t' (eraseKey Span.base base (spans t))) ∧
    ∀ addr base size t', 0 < size → avlInsert addr base size t = some t' →
      Holds t' (insertKey Span.base ⟨base, size⟩ (spans t)) := by
  refine ⟨fun base => ?_, fun ha addr base size hpos => ?_, fun base t' h => ?_,
    fun addr base size t' hpos h => ?_⟩
  · obtain ⟨t', ht', -⟩ := avlDelete_some hp base
    exact Option.isSome_of_eq_some ht'
  · have hsafe : TreeCall.Safe t (.insert addr base size) :=
      ⟨hpos.ne', (isAvl_iff.mpr ha).path base⟩
    obtain ⟨t', ht', -⟩ := apply_some hp hsafe
    exact Option.isSome_of_eq_some ht'
  · obtain ⟨u, hu, hpu⟩ := avlDelete_some hp base
    obtain rfl : u = t' := Option.some.inj (hu.symm.trans h)
    exact ⟨avlDelete_ordered ho h, hpu, avlDelete_spans ho h⟩
  · exact ⟨avlInsert_ordered ho h, avlInsert_positive hp h, avlInsert_spans hpos.ne' ho h⟩

/-- The root is stored as too tall, and it is the one that goes. -/
theorem calls_are_map_two : ∃ t',
    avlDelete 20 (.node ⟨1, 20, 8, 9⟩ (.node ⟨2, 10, 8, 1⟩ .nil .nil)
      (.node ⟨3, 30, 8, 1⟩ .nil .nil)) = some t' ∧ Holds t' [⟨10, 8⟩, ⟨30, 8⟩] := by
  have ho : Ordered (.node ⟨1, 20, 8, 9⟩ (.node ⟨2, 10, 8, 1⟩ .nil .nil)
      (.node ⟨3, 30, 8, 1⟩ .nil .nil)) := by
    simp [Ordered, Sorted, spans, Cell.span]
  have h := calls_are_map ho (by simp [Positive])
  exact ⟨_, rfl, h.2.2.1 20 _ rfl⟩

end Shigure.Avl
