import Shigure.Vm.HeapLaws
import Shigure.Vm.NodeStore

/-!
# The tree operations in memory

On a tree in memory the code computes what the operations of the tree compute,
and leaves their result in memory. For an insertion this needs to be known of
`create_node` only: that it leaves the tree in memory too, with the blocks on
the same sides of the inserted base.
-/

namespace Shigure.Vm.KHeap

open Avl (Cell addrs Positive Bounded Ordered SameContents)

section
variable {m m' : Mem} {t t' l r l' r' : Avl.AvlNode} {c : Cell} {base size : Nat} {as : List Nat}
  {x : Option (Mem × Nat)} {y : Option Avl.AvlNode}

-- ---------------------------------------------------------------------------
-- Rebalancing
-- ---------------------------------------------------------------------------

theorem Simulates.before (ho : Only as m m') (h : Simulates m' x y)
    (hs : ∀ t, y = some t → as ⊆ addrs t) : Simulates m x y := by
  rcases h with h | ⟨m'', t, hx, hy, ht, ho'⟩
  · exact .inl h
  · exact .inr ⟨m'', t, hx, hy, ht, (ho.mono (hs t hy)).trans ho'⟩

theorem Half.setLeft (h : Half m c l r) (hl : Stored m' l') (ho : Only (addrs l') m m')
    (hs : Store (addrs (.node c l' r))) :
    Half (setLeft m' c.addr (ptr l')) c l' r ∧
      Only (addrs (.node c l' r)) m (setLeft m' c.addr (ptr l')) := by
  obtain ⟨hsl, hsr, hcl, hcr, hlr⟩ := hs.node
  refine ⟨⟨?_, h.positive, hl.only setLeft_only (by simpa using hcl), ?_, hs⟩,
    (ho.mono (by simp)).trans (setLeft_only.mono (by simp))⟩
  · rw [load_setLeft (ptr_lt hsl), ho.load fun a ha => (hcl a ha).symm, h.node]
  · exact (h.right.only ho fun p hp a ha => hlr a ha p hp).only setLeft_only (by simpa using hcr)

theorem Half.setRight (h : Half m c l r) (hr : Stored m' r') (ho : Only (addrs r') m m')
    (hs : Store (addrs (.node c l r'))) :
    Half (setRight m' c.addr (ptr r')) c l r' ∧
      Only (addrs (.node c l r')) m (setRight m' c.addr (ptr r')) := by
  obtain ⟨hsl, hsr, hcl, hcr, hlr⟩ := hs.node
  refine ⟨⟨?_, h.positive, ?_, hr.only setRight_only (by simpa using hcr), hs⟩,
    (ho.mono (by simp)).trans (setRight_only.mono (by simp))⟩
  · rw [load_setRight (ptr_lt hsr), ho.load fun a ha => (hcr a ha).symm, h.node]
  · exact (h.left.only ho fun p hp a ha => (hlr p hp a ha).symm).only setRight_only
      (by simpa using hcl)

theorem Half.rotateLeftRight (h : Half m c l r) (hl : l ≠ .nil) :
    Simulates m
      (do let (m, l) ← KHeap.rotateLeft m (ptr l); KHeap.rotateRight (KHeap.setLeft m c.addr l) c.addr)
      (do Avl.rotateRight (.node c (← Avl.rotateLeft l) r)) := by
  cases l with
  | nil => exact absurd rfl hl
  | node lc ll lr =>
    rcases h.left.half.rotateLeft with ⟨hx, hy⟩ | ⟨m', l', hx, hy, hl', ho⟩
    · exact .inl ⟨by rw [ptr_node, hx]; rfl, by rw [hy]; rfl⟩
    · have ha := (Avl.rotateLeft_same hy).2.1
      obtain ⟨hhalf, ho'⟩ := h.setLeft hl' ho (by
        have := h.store
        rwa [Avl.addrs_node, ← ha, ← Avl.addrs_node] at this)
      rw [ptr_node, hx, hy]
      refine hhalf.rotateRight.before ho' fun t ht => ?_
      rw [(Avl.rotateRight_same ht).2.1]
      exact List.Subset.refl _

theorem Half.rotateRightLeft (h : Half m c l r) (hr : r ≠ .nil) :
    Simulates m
      (do let (m, r) ← KHeap.rotateRight m (ptr r); KHeap.rotateLeft (KHeap.setRight m c.addr r) c.addr)
      (do Avl.rotateLeft (.node c l (← Avl.rotateRight r))) := by
  cases r with
  | nil => exact absurd rfl hr
  | node rc rl rr =>
    rcases h.right.half.rotateRight with ⟨hx, hy⟩ | ⟨m', r', hx, hy, hr', ho⟩
    · exact .inl ⟨by rw [ptr_node, hx]; rfl, by rw [hy]; rfl⟩
    · have ha := (Avl.rotateRight_same hy).2.1
      obtain ⟨hhalf, ho'⟩ := h.setRight hr' ho (by
        have := h.store
        rwa [Avl.addrs_node, ← ha, ← Avl.addrs_node] at this)
      rw [ptr_node, hx, hy]
      refine hhalf.rotateLeft.before ho' fun t ht => ?_
      rw [(Avl.rotateLeft_same ht).2.1]
      exact List.Subset.refl _

theorem Half.rebalanceDelete (h : Half m c l r) :
    Simulates m (rebalanceDelete m c.addr) (Avl.rebalanceDelete c l r) := by
  have hst := h.updated
  have hsub : ∀ t, Avl.rebalanceDelete c l r = some t → [c.addr] ⊆ addrs t := fun t ht => by
    rw [(Avl.rebalanceDelete_same ht).2.1]
    simp
  refine Simulates.before (updateHeight_only (m := m) (p := c.addr)) ?_ hsub
  rw [KHeap.rebalanceDelete, Avl.rebalanceDelete]
  dsimp only
  generalize updateHeight m c.addr = m1 at *
  have hhalf := hst.half
  have hn : load m1 c.addr = _ := hhalf.node
  rw [hn]
  dsimp only
  rw [height_ptr hhalf.left.rep hhalf.left.store, height_ptr hhalf.right.rep hhalf.right.store,
    getBalance_ptr hhalf.left.rep hhalf.left.store, getBalance_ptr hhalf.right.rep hhalf.right.store]
  split
  · exact hhalf.rotateRight
  split
  · exact hhalf.rotateLeft
  split
  · rename_i hb
    exact hhalf.rotateLeftRight fun hl => by
      rw [hl] at hb
      exact absurd hb.2 (by simp [Avl.getBalance])
  split
  · rename_i hb
    exact hhalf.rotateRightLeft fun hr => by
      rw [hr] at hb
      exact absurd hb.2 (by simp [Avl.getBalance])
  · exact .inr ⟨m1, _, rfl, rfl, hst, Only.refl _ _⟩

theorem Half.rebalanceInsert (h : Half m c l r) (base : Nat) :
    Simulates m (rebalanceInsert base m c.addr) (Avl.rebalanceInsert base c l r) := by
  have hst := h.updated
  have hsub : ∀ t, Avl.rebalanceInsert base c l r = some t → [c.addr] ⊆ addrs t := fun t ht => by
    rw [(Avl.rebalanceInsert_same ht).2.1]
    simp
  refine Simulates.before (updateHeight_only (m := m) (p := c.addr)) ?_ hsub
  unfold KHeap.rebalanceInsert Avl.rebalanceInsert
  dsimp only
  generalize updateHeight m c.addr = m1 at *
  have hhalf := hst.half
  have hn : load m1 c.addr = _ := hhalf.node
  rw [hn]
  dsimp only
  rw [height_ptr hhalf.left.rep hhalf.left.store, height_ptr hhalf.right.rep hhalf.right.store]
  split
  · cases l with
    | nil => exact .inl ⟨rfl, rfl⟩
    | node lc ll lr =>
      have hlc : load m1 lc.addr = _ := hhalf.left.half.node
      rw [ptr_node, if_neg hhalf.left.store.head.1, hlc]
      dsimp only
      split
      · exact hhalf.rotateRight
      split
      · exact hhalf.rotateLeftRight nofun
      · exact .inr ⟨m1, _, rfl, rfl, hst, Only.refl _ _⟩
  split
  · cases r with
    | nil => exact .inl ⟨rfl, rfl⟩
    | node rc rl rr =>
      have hrc : load m1 rc.addr = _ := hhalf.right.half.node
      rw [ptr_node, if_neg hhalf.right.store.head.1, hrc]
      dsimp only
      split
      · exact hhalf.rotateLeft
      split
      · exact hhalf.rotateRightLeft nofun
      · exact .inr ⟨m1, _, rfl, rfl, hst, Only.refl _ _⟩
  · exact .inr ⟨m1, _, rfl, rfl, hst, Only.refl _ _⟩

-- ---------------------------------------------------------------------------
-- Deletion
-- ---------------------------------------------------------------------------

theorem load_base_lt (m : Mem) (p : Nat) : (load m p).base < 2 ^ 32 := m.read32_lt p

theorem load_size_lt (m : Mem) (p : Nat) : (load m p).size < 2 ^ 32 := m.read32_lt (p + 4)

theorem Stored.findMinBase (h : Stored m t) (hm : Avl.findMinBase t = some c)
    (hn : (addrs t).length < n) : findMinBase m n (ptr t) = some c.addr := by
  induction t generalizing n with
  | nil => cases hm
  | node d l r ihl _ =>
    obtain ⟨k, rfl⟩ : ∃ k, n = k + 1 := ⟨n - 1, by omega⟩
    rw [KHeap.findMinBase, ptr_node, h.half.node]
    dsimp only
    cases l with
    | nil =>
      obtain rfl := Option.some.inj hm
      rw [ptr_nil, if_neg (by simp)]
    | node lc ll lr =>
      rw [if_pos (by exact h.half.left.store.head.1)]
      refine ihl h.half.left hm ?_
      rw [Avl.addrs_length_node] at hn
      omega

theorem Half.setBlock (h : Half m c l r) (hb : base < 2 ^ 32) (hs : size < 2 ^ 32) :
    Half (setSize (setBase m c.addr base) c.addr size) { c with base := base, size := size } l r := by
  refine h.write (setBase_only.trans setSize_only) rfl ?_ h.positive
  rw [load_setSize hs, load_setBase hb, h.node]

theorem Stored.avlDelete (base : Nat) (h : Stored m t) (hn : (addrs t).length < n) :
    Simulates m (avlDelete base n m (ptr t)) (Avl.avlDelete base t) := by
  induction t generalizing base m n with
  | nil =>
    obtain ⟨k, rfl⟩ : ∃ k, n = k + 1 := ⟨n - 1, by omega⟩
    exact .inr ⟨m, .nil, rfl, rfl, h, Only.refl _ _⟩
  | node c l r ihl ihr =>
    obtain ⟨k, rfl⟩ : ∃ k, n = k + 1 := ⟨n - 1, by omega⟩
    rw [Avl.addrs_length_node] at hn
    -- the way back up, once a child has been dealt with
    have onLeft : ∀ {base}, Simulates m
        (do let (m, l) ← KHeap.avlDelete base k m (ptr l); rebalanceDelete (setLeft m c.addr l) c.addr)
        (do Avl.rebalanceDelete c (← Avl.avlDelete base l) r) := by
      intro base
      rcases ihl base h.half.left (n := k) (by omega) with ⟨hx, hy⟩ | ⟨m', l', hx, hy, hl', ho⟩
      · exact .inl ⟨by rw [hx]; rfl, by rw [hy]; rfl⟩
      · obtain ⟨hhalf, ho'⟩ := h.half.setLeft hl' ho
          (h.store.sublist (by simpa using Avl.avlDelete_addrs hy))
        rw [hx, hy]
        refine hhalf.rebalanceDelete.before ho' fun t ht => ?_
        rw [(Avl.rebalanceDelete_same ht).2.1]
        exact List.Subset.refl _
    have onRight : ∀ {base d m₁}, Half m₁ d l r → d.addr = c.addr → Only [c.addr] m m₁ → Simulates m
        (do let (m, r) ← KHeap.avlDelete base k m₁ (ptr r); rebalanceDelete (setRight m c.addr r) c.addr)
        (do Avl.rebalanceDelete d l (← Avl.avlDelete base r)) := by
      intro base d m₁ hd ha ho₁
      rcases ihr base hd.right (n := k) (by omega) with ⟨hx, hy⟩ | ⟨m', r', hx, hy, hr', ho⟩
      · exact .inl ⟨by rw [hx]; rfl, by rw [hy]; rfl⟩
      · obtain ⟨hhalf, ho'⟩ := hd.setRight hr' ho
          (hd.store.sublist (by simpa using Avl.avlDelete_addrs hy))
        rw [hx, hy, ← ha]
        refine hhalf.rebalanceDelete.before ((ho₁.mono (by simp [ha])).trans ho') fun t ht => ?_
        rw [(Avl.rebalanceDelete_same ht).2.1]
        exact List.Subset.refl _
    rw [KHeap.avlDelete, Avl.avlDelete, ptr_node, if_neg h.store.head.1, h.half.node]
    dsimp only
    split
    · exact onLeft
    split
    · exact onRight h.half rfl (Only.refl _ _)
    simp only [ptr_eq_zero h.half.left.store, ptr_eq_zero h.half.right.store]
    split
    · exact .inr ⟨m, .nil, rfl, rfl, Stored.nil m, Only.refl _ _⟩
    split
    · by_cases hl : l = .nil
      · rw [if_neg (not_not.mpr hl), if_neg (not_not.mpr ((ptr_eq_zero h.half.left.store).mpr hl))]
        exact .inr ⟨m, r, rfl, rfl, h.half.right, Only.refl _ _⟩
      · rw [if_pos hl, if_pos fun hp => hl ((ptr_eq_zero h.half.left.store).mp hp)]
        exact .inr ⟨m, l, rfl, rfl, h.half.left, Only.refl _ _⟩
    · rename_i hne
      obtain ⟨temp, -, hm, -⟩ := Avl.findMinBase_spans fun hr => hne (.inr hr)
      have hmem := Avl.findMinBase_mem hm
      obtain ⟨hb, hs⟩ := h.half.right.rep.cell hmem
      obtain ⟨-, -, -, hcr, -⟩ := h.store.node
      have hclear := hcr temp.addr (Avl.mem_addrs_of_mem hmem)
      have hbase := hb ▸ load_base_lt m temp.addr
      have hsize := hs ▸ load_size_lt m temp.addr
      have hhalf := h.half.setBlock hbase hsize
      have ho : Only [c.addr] m (setSize (setBase m c.addr temp.base) c.addr temp.size) :=
        setBase_only.trans setSize_only
      have hm' := h.half.right.findMinBase hm (n := k) (by omega)
      simp only [hm, hm', Option.bind_eq_bind, Option.bind_some, hb]
      rw [setBase_only.load (by simpa using hclear), hs, ho.load (by simpa using hclear), hb,
        show load (setSize (setBase m c.addr temp.base) c.addr temp.size) c.addr = _ from hhalf.node]
      exact onRight hhalf rfl ho

-- ---------------------------------------------------------------------------
-- Search
-- ---------------------------------------------------------------------------

def addrOf (o : Option Cell) : Nat := (o.map Cell.addr).getD 0

theorem Stored.addr_ne_zero (h : Stored m t) (hc : c ∈ inorder t) : c.addr ≠ 0 := by
  have := h.store.low _ (Avl.mem_addrs_of_mem hc)
  simp only [nodeSize] at this
  omega

theorem Stored.findBestFit (h : Stored m t) (size : Nat) (hn : (addrs t).length < n) :
    findBestFit size m n (ptr t) = some (addrOf (Avl.findBestFit size t)) := by
  induction t generalizing n with
  | nil =>
    obtain ⟨k, rfl⟩ : ∃ k, n = k + 1 := ⟨n - 1, by omega⟩
    rfl
  | node c l r ihl ihr =>
    obtain ⟨k, rfl⟩ : ∃ k, n = k + 1 := ⟨n - 1, by omega⟩
    rw [Avl.addrs_length_node] at hn
    rw [KHeap.findBestFit, ptr_node, if_neg h.store.head.1, h.half.node, Avl.findBestFit]
    dsimp only
    split
    · rw [ihl h.half.left (by omega), Option.bind_eq_bind, Option.bind_some]
      cases hb : Avl.findBestFit size l with
      | none => rfl
      | some best =>
        have hmem := (Avl.findBestFit_mem hb).1
        have ha : addrOf (some best) = best.addr := rfl
        simp only [ha, h.half.left.addr_ne_zero hmem, (h.half.left.rep.cell hmem).2, ne_eq,
          not_false_eq_true, true_and]
        split <;> rfl
    · exact ihr h.half.right (by omega)

theorem Half.cellAt (h : Half m c l r) : cellAt m c.addr = c := by
  rw [KHeap.cellAt, h.node]

theorem Stored.overlapFound (h : Stored m t) (hn : (addrs t).length < n) :
    overlapFound base size m n (ptr t) = some (Vm.overlapFound base size t) := by
  induction t generalizing n with
  | nil =>
    obtain ⟨k, rfl⟩ : ∃ k, n = k + 1 := ⟨n - 1, by omega⟩
    rfl
  | node c l r ihl ihr =>
    obtain ⟨k, rfl⟩ : ∃ k, n = k + 1 := ⟨n - 1, by omega⟩
    rw [Avl.addrs_length_node] at hn
    rw [KHeap.overlapFound, ptr_node, if_neg h.store.head.1, h.half.cellAt, h.half.node,
      Vm.overlapFound]
    dsimp only
    split
    · rfl
    split
    · exact ihl h.half.left (by omega)
    · exact ihr h.half.right (by omega)

theorem addrOf_ne_zero {o : Option Cell} (h : ∀ c, o = some c → c.addr ≠ 0) :
    addrOf o ≠ 0 ↔ o.isSome := by
  cases o with
  | none => simp [addrOf]
  | some c => simpa [addrOf] using h c rfl

theorem Stored.findNeighbors (h : Stored m t) (base size : Nat) (left right : Option Cell)
    (hn : (addrs t).length < n) (hl : ∀ c, left = some c → c.addr ≠ 0)
    (hr : ∀ c, right = some c → c.addr ≠ 0) :
    findNeighbors base size m n (ptr t) (addrOf left) (addrOf right) =
      some (addrOf (Vm.findNeighbors base size t left right).1,
        addrOf (Vm.findNeighbors base size t left right).2) := by
  induction t generalizing n left right with
  | nil =>
    obtain ⟨k, rfl⟩ : ∃ k, n = k + 1 := ⟨n - 1, by omega⟩
    rfl
  | node c l r ihl ihr =>
    obtain ⟨k, rfl⟩ : ∃ k, n = k + 1 := ⟨n - 1, by omega⟩
    rw [Avl.addrs_length_node] at hn
    have hc := h.addr_ne_zero (c := c) (by simp)
    -- what is noted at the node
    have hnote : (if add32 c.base c.size = base then (c.addr, addrOf right)
        else if add32 base size = c.base then (addrOf left, c.addr)
        else (addrOf left, addrOf right)) =
        (addrOf (noteNeighbor base size c left right).1,
          addrOf (noteNeighbor base size c left right).2) := by
      rw [noteNeighbor]
      split
      · rfl
      split <;> rfl
    have hne : (∀ d, (noteNeighbor base size c left right).1 = some d → d.addr ≠ 0) ∧
        ∀ d, (noteNeighbor base size c left right).2 = some d → d.addr ≠ 0 := by
      rw [noteNeighbor]
      split
      · exact ⟨fun d hd => Option.some.inj hd ▸ hc, hr⟩
      split
      · exact ⟨hl, fun d hd => Option.some.inj hd ▸ hc⟩
      · exact ⟨hl, hr⟩
    rw [KHeap.findNeighbors, ptr_node, if_neg h.store.head.1, h.half.node, Vm.findNeighbors]
    dsimp only
    rw [hnote]
    generalize noteNeighbor base size c left right = ab at hne
    obtain ⟨a, b⟩ := ab
    dsimp only at hne ⊢
    simp only [addrOf_ne_zero hne.1, addrOf_ne_zero hne.2]
    split
    · rfl
    split
    · exact ihl h.half.left _ _ (by omega) hne.1 hne.2
    · exact ihr h.half.right _ _ (by omega) hne.1 hne.2

-- ---------------------------------------------------------------------------
-- Insertion
-- ---------------------------------------------------------------------------

def Missing (base : Nat) : Avl.AvlNode → Prop
  | .nil => True
  | .node c l r =>
    if base < c.base then Missing base l else if base > c.base then Missing base r else False

/-- What an insertion relies on: where the base is missing, `create_node` takes
the state `s` to `s₁` and returns `leaf`. The tree is still there afterwards, its
cells changed by `f` on their side of the base. -/
structure Ready (base size : Nat) (s s₁ : KState) (leaf : Avl.AvlNode) (f : Cell → Cell)
    (t : Avl.AvlNode) : Prop where
  before : Stored s.mem t
  after : Stored s₁.mem (t.map f)
  sides : ∀ c ∈ inorder t,
    (base < (f c).base ↔ base < c.base) ∧ (base > (f c).base ↔ base > c.base)
  node : ∀ c, (f c).addr = c.addr
  hung : Stored s₁.mem leaf
  store : Store (addrs leaf ++ addrs (t.map f))
  new : Missing base t → createNode base size s = some (s₁, ptr leaf)
  old : ¬ Missing base t → s₁ = s

variable {s s₁ : KState} {leaf : Avl.AvlNode} {f : Cell → Cell}

theorem Ready.left (h : Ready base size s s₁ leaf f (.node c l r)) (hb : base < c.base) :
    Ready base size s s₁ leaf f l := by
  have hs : Store (addrs leaf ++ addrs (.node (f c) (l.map f) (r.map f))) := h.store
  refine ⟨h.before.half.left, (Stored.half h.after).left, fun d hd => h.sides d (by simp [hd]),
    h.node, h.hung, hs.sublist ?_, fun hm => h.new ?_, fun hm => h.old ?_⟩
  · rw [Avl.addrs_node]
    exact (List.Sublist.refl _).append (List.sublist_append_left _ _)
  · rwa [Missing, if_pos hb]
  · rwa [Missing, if_pos hb]

theorem Ready.right (h : Ready base size s s₁ leaf f (.node c l r)) (hb : c.base < base) :
    Ready base size s s₁ leaf f r := by
  have hs : Store (addrs leaf ++ addrs (.node (f c) (l.map f) (r.map f))) := h.store
  refine ⟨h.before.half.right, (Stored.half h.after).right, fun d hd => h.sides d (by simp [hd]),
    h.node, h.hung, hs.sublist ?_, fun hm => h.new ?_, fun hm => h.old ?_⟩
  · rw [Avl.addrs_node]
    exact (List.Sublist.refl _).append ((List.sublist_cons_self _ _).trans
      (List.sublist_append_right _ _))
  · rwa [Missing, if_neg hb.not_gt, if_pos hb]
  · rwa [Missing, if_neg hb.not_gt, if_pos hb]

theorem Store.insertLeft (hs : Store (addrs leaf ++ addrs (.node c l r)))
    (h : Avl.insertLeaf leaf base l = some l') : Store (addrs (.node c l' r)) := by
  rw [Avl.addrs_node] at hs ⊢
  rcases Avl.insertLeaf_addrs h with heq | hp
  · rw [heq]
    exact hs.sublist (List.sublist_append_right _ _)
  · refine hs.perm ?_
    rw [← List.append_assoc]
    exact hp.append_right _

theorem Store.insertRight (hs : Store (addrs leaf ++ addrs (.node c l r)))
    (h : Avl.insertLeaf leaf base r = some r') : Store (addrs (.node c l r')) := by
  rw [Avl.addrs_node] at hs ⊢
  rcases Avl.insertLeaf_addrs h with heq | hp
  · rw [heq]
    exact hs.sublist (List.sublist_append_right _ _)
  · refine hs.perm ((((hp.cons _).trans List.perm_middle.symm).append_left _).trans ?_)
    rw [← List.append_assoc, ← List.append_assoc]
    exact List.perm_append_comm.append_right _

/-- `Simulates` for a function on the state of the heap, which ends with the state
`s₁` but for its memory. -/
def SimulatesIn (s₁ : KState) (x : Option (KState × Nat)) (y : Option Avl.AvlNode) : Prop :=
  (x = none ∧ y = none) ∨
    ∃ m' t, x = some ({ s₁ with mem := m' }, ptr t) ∧ y = some t ∧ Stored m' t ∧
      Only (addrs t) s₁.mem m'

theorem Simulates.lift (h : Simulates m x y) (ho : Only as s₁.mem m)
    (hs : ∀ t, y = some t → as ⊆ addrs t) :
    SimulatesIn s₁ (do let (m, node) ← x; some ({ s₁ with mem := m }, node)) y := by
  rcases h.before ho hs with ⟨hx, hy⟩ | ⟨m', t, hx, h⟩
  · exact .inl ⟨by rw [hx]; rfl, hy⟩
  · exact .inr ⟨m', t, by rw [hx]; rfl, h⟩

theorem Ready.avlInsert (h : Ready base size s s₁ leaf f t) (hsize : size ≠ 0)
    (hn : (addrs t).length < n) :
    SimulatesIn s₁ (avlInsert base size n s (ptr t)) (Avl.insertLeaf leaf base (t.map f)) := by
  induction t generalizing n with
  | nil =>
    obtain ⟨k, rfl⟩ : ∃ k, n = k + 1 := ⟨n - 1, by omega⟩
    refine .inr ⟨s₁.mem, leaf, ?_, rfl, h.hung, Only.refl _ _⟩
    rw [KHeap.avlInsert, if_neg hsize, ptr_nil, if_pos rfl, h.new trivial]
  | node c l r ihl ihr =>
    obtain ⟨k, rfl⟩ : ∃ k, n = k + 1 := ⟨n - 1, by omega⟩
    rw [Avl.addrs_length_node] at hn
    have hafter : Stored s₁.mem (.node (f c) (l.map f) (r.map f)) := h.after
    have hstore : Store (addrs leaf ++ addrs (.node (f c) (l.map f) (r.map f))) := h.store
    obtain ⟨hlt, hgt⟩ := h.sides c (by simp)
    rw [KHeap.avlInsert, if_neg hsize, ptr_node, if_neg h.before.store.head.1, h.before.half.node,
      BinaryTree.map, Avl.insertLeaf]
    dsimp only
    simp only [hlt, hgt]
    split
    · rename_i hb
      rcases ihl (h.left hb) (n := k) (by omega) with ⟨hx, hy⟩ | ⟨m', l', hx, hy, hl', ho⟩
      · exact .inl ⟨by rw [hx]; rfl, by rw [hy]; rfl⟩
      · obtain ⟨hhalf, ho'⟩ := hafter.half.setLeft hl' ho (hstore.insertLeft hy)
        rw [hx, hy, ← h.node c]
        refine (hhalf.rebalanceInsert base).lift ho' fun t ht => ?_
        rw [(Avl.rebalanceInsert_same ht).2.1]
        exact List.Subset.refl _
    split
    · rename_i hb
      rcases ihr (h.right hb) (n := k) (by omega) with ⟨hx, hy⟩ | ⟨m', r', hx, hy, hr', ho⟩
      · exact .inl ⟨by rw [hx]; rfl, by rw [hy]; rfl⟩
      · obtain ⟨hhalf, ho'⟩ := hafter.half.setRight hr' ho (hstore.insertRight hy)
        rw [hx, hy, ← h.node c]
        refine (hhalf.rebalanceInsert base).lift ho' fun t ht => ?_
        rw [(Avl.rebalanceInsert_same ht).2.1]
        exact List.Subset.refl _
    · rename_i h1 h2
      have hold := h.old (by rw [Missing, if_neg h1, if_neg h2]; exact id)
      refine .inr ⟨s₁.mem, _, ?_, rfl, hafter, Only.refl _ _⟩
      rw [← hold, ptr_node, h.node]

end

end Shigure.Vm.KHeap
