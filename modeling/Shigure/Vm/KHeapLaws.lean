import Shigure.Vm.HeapRuns
import Shigure.Vm.TreeSim

/-!
# The kernel heap, call by call

What `kmalloc`, `ikmalloc` and `kfree` do to a kernel heap that is in order: its
tree is in memory, its free and live blocks tile the area, and every tree node is
in a block of its own or before the area. Allocation keeps this. Release does as
long as the storage for the new node does not use up the free block that it is
cut from: the node of that block would be unlinked under the insertion.
-/

namespace Shigure.Vm.KHeap

open Avl (Cell addrs spans Positive Bounded Ordered SameContents)

section
variable {m m' : Mem} {t t' root : Avl.AvlNode} {c best : Cell} {base size a p : Nat}
  {s s' s₁ : KState} {leaf : Avl.AvlNode}

-- ---------------------------------------------------------------------------
-- Bases that are there
-- ---------------------------------------------------------------------------

theorem missing_of_absent (h : ∀ c ∈ inorder t, c.base ≠ base) : Missing base t := by
  induction t with
  | nil => trivial
  | node c l r ihl ihr =>
    rw [Missing]
    split
    · exact ihl fun d hd => h d (by simp [hd])
    split
    · exact ihr fun d hd => h d (by simp [hd])
    · have := h c (by simp)
      omega

theorem not_missing (ho : Ordered t) (hc : c ∈ inorder t) : ¬ Missing c.base t := by
  induction t with
  | nil => cases hc
  | node d l r ihl ihr =>
    obtain ⟨hl, hr, hld, hdr⟩ := Avl.ordered_node.mp ho
    rw [Missing]
    rcases List.mem_append.mp hc with hc | hc
    · have hlt : c.base < d.base := hld c.span (Avl.mem_spans_of_mem hc)
      rw [if_pos hlt]
      exact ihl hl hc
    · rcases List.mem_cons.mp hc with rfl | hc
      · rw [if_neg (lt_irrefl _), if_neg (lt_irrefl _)]
        exact id
      · have hlt : d.base < c.base := hdr c.span (Avl.mem_spans_of_mem hc)
        rw [if_neg hlt.not_gt, if_pos hlt]
        exact ihr hr hc

/-- The leaf does not matter where the base is there. -/
theorem insertLeaf_present (leaf leaf' : Avl.AvlNode) (h : ¬ Missing base t) :
    Avl.insertLeaf leaf base t = Avl.insertLeaf leaf' base t := by
  induction t with
  | nil => exact absurd trivial h
  | node c l r ihl ihr =>
    rw [Missing] at h
    rw [Avl.insertLeaf, Avl.insertLeaf]
    split at h
    · rw [if_pos ‹_›, if_pos ‹_›, ihl h]
    · split at h
      · rw [if_neg ‹_›, if_pos ‹_›, if_neg ‹_›, if_pos ‹_›, ihr h]
      · rw [if_neg ‹_›, if_neg ‹_›, if_neg ‹_›, if_neg ‹_›]

-- ---------------------------------------------------------------------------
-- Assigning a block
-- ---------------------------------------------------------------------------

theorem setBlock_bounded (h : Bounded t) : Bounded (setBlock a base size t) := by
  induction t with
  | nil => trivial
  | node c l r ihl ihr =>
    refine ⟨?_, ihl h.2.1, ihr h.2.2⟩
    have hlen := setBlock_addrs a base size (.node c l r)
    rw [setBlock, BinaryTree.map] at hlen
    rw [hlen]
    dsimp only
    split <;> exact h.1

theorem ptr_setBlock (a base size : Nat) (t : Avl.AvlNode) : ptr (setBlock a base size t) = ptr t := by
  cases t with
  | nil => rfl
  | node c l r =>
    rw [setBlock, BinaryTree.map, ptr_node, ptr_node]
    split <;> rfl

theorem Rep.setBlock (h : Rep m t) (hs : ∀ p ∈ addrs t, p = a ∨ Clear a p) (hb : base < 2 ^ 32)
    (hz : size < 2 ^ 32) :
    Rep (setSize (setBase m a base) a size) (setBlock a base size t) := by
  induction t with
  | nil => trivial
  | node c l r ihl ihr =>
    obtain ⟨hc, hl, hr⟩ := h
    refine ⟨?_, ihl hl fun p hp => hs p (by simp [hp]), ihr hr fun p hp => hs p (by simp [hp])⟩
    have ho : Only [a] m (setSize (setBase m a base) a size) := setBase_only.trans setSize_only
    have hp := ptr_setBlock a base size l
    have hp' := ptr_setBlock a base size r
    rw [Vm.setBlock] at hp hp'
    rw [hp, hp']
    dsimp only
    split
    · rename_i ha
      rw [ha] at hc
      rw [ha, load_setSize hz, load_setBase hb, hc]
    · rename_i ha
      rw [ho.load (by simpa using (hs c.addr (by simp)).resolve_left ha), hc]

theorem Stored.setBlock (h : Stored m t) (ha : a ∈ addrs t) (hb : base < 2 ^ 32)
    (hz : size < 2 ^ 32) :
    Stored (setSize (setBase m a base) a size) (Vm.setBlock a base size t) := by
  refine ⟨h.rep.setBlock (fun p hp => ?_) hb hz, setBlock_positive a h.positive,
    setBlock_bounded h.bounded, by rw [setBlock_addrs]; exact h.store⟩
  by_cases he : p = a
  · exact .inl he
  · exact .inr (h.store.clear a ha p hp (Ne.symm he))

-- ---------------------------------------------------------------------------
-- Allocation, step by step
-- ---------------------------------------------------------------------------

theorem Stored.length_lt_fuel (h : Stored m t) : (addrs t).length < fuel :=
  h.store.length_lt.trans (by decide)

theorem Stored.insertFragment (h : Stored s.mem t) (hr : s.root = ptr t) (ho : Ordered t)
    (hc : best ∈ inorder t) (node offset : Nat) :
    (insertFragment (fun s node base size => avlInsert base size fuel s node) best.base offset s =
        none ∧ Vm.insertFragment node best.base offset t = none) ∨
    ∃ m' t', insertFragment (fun s node base size => avlInsert base size fuel s node) best.base
        offset s = some { s with mem := m', root := ptr t' } ∧
      Vm.insertFragment node best.base offset t = some t' ∧ Stored m' t' ∧
      SameContents t t' ∧ Only (addrs t) s.mem m' := by
  rw [KHeap.insertFragment, Vm.insertFragment, hr]
  split
  · rename_i hoff
    have hsize : offset ≠ 0 := by omega
    have hpres := not_missing ho hc
    have hready : Ready best.base offset s s .nil id t :=
      ⟨h, by rw [BinaryTree.id_map]; exact h, by simp, by simp, Stored.nil _,
        by rw [BinaryTree.id_map]; simpa using h.store, fun hm => absurd hm hpres, fun _ => rfl⟩
    have hgo : Avl.insertLeaf .nil best.base t = Avl.avlInsert node best.base offset t := by
      rw [Avl.avlInsert, if_neg hsize, ← Avl.insertLeaf_createNode]
      exact insertLeaf_present _ _ hpres
    rcases hready.avlInsert hsize h.length_lt_fuel with ⟨hx, hy⟩ | ⟨m', t', hx, hy, ht', ho'⟩
    · rw [BinaryTree.id_map, hgo] at hy
      exact .inl ⟨by rw [hx]; rfl, hy⟩
    · rw [BinaryTree.id_map] at hy
      have hsame := Avl.insertLeaf_nil hy
      refine .inr ⟨m', t', by rw [hx]; rfl, hgo ▸ hy, ht', hsame, ?_⟩
      rwa [← hsame.2.1]
  · exact .inr ⟨s.mem, t, by rw [← hr], rfl, h, .refl t, Only.refl _ _⟩

theorem Stored.shrink (h : Stored s.mem t) (hr : s.root = ptr t) (hc : c ∈ inorder t)
    (hb : base < 2 ^ 32) (used : Nat) :
    ∃ m' t', shrink c.addr base used s = some { s with mem := m', root := ptr t' } ∧
      Vm.removeUsed base (sub32 c.size used) (Vm.setBlock c.addr base (sub32 c.size used) t) = some t' ∧
      Stored m' t' ∧ Only (addrs t) s.mem m' := by
  have ha := Avl.mem_addrs_of_mem hc
  have hz : sub32 c.size used < 2 ^ 32 := Nat.mod_lt _ (by decide)
  have hst := h.setBlock ha hb hz
  have ho : Only (addrs t) s.mem (setSize (setBase s.mem c.addr base) c.addr (sub32 c.size used)) :=
    (setBase_only.trans setSize_only).mono (by simpa using ha)
  have hsize : (load (setBase s.mem c.addr base) c.addr).size = c.size := by
    rw [load_setBase hb]
    exact (h.rep.cell hc).2
  have hload : load (setSize (setBase s.mem c.addr base) c.addr (sub32 c.size used)) c.addr =
      { load s.mem c.addr with base := base, size := sub32 c.size used } := by
    rw [load_setSize hz, load_setBase hb]
  rw [KHeap.shrink, hsize, KHeap.removeUsed, Vm.removeUsed, hload]
  dsimp only
  split
  · obtain ⟨t', ht', hp⟩ := Avl.avlDelete_some hst.positive base
    have hptr : s.root = ptr (Vm.setBlock c.addr base (sub32 c.size used) t) := by
      rw [ptr_setBlock, hr]
    rcases hst.avlDelete base hst.length_lt_fuel with ⟨-, hy⟩ | ⟨m', t'', hx, hy, ht, ho'⟩
    · rw [ht'] at hy
      cases hy
    · rw [hptr, hx]
      refine ⟨m', t'', rfl, hy, ht, ho.trans (ho'.mono fun x hx => ?_)⟩
      have := (Avl.avlDelete_addrs hy).subset hx
      rwa [setBlock_addrs] at this
  · refine ⟨_, _, ?_, rfl, hst, ho⟩
    rw [ptr_setBlock, hr]

theorem add32_lt (x y : Nat) : add32 x y < 2 ^ 32 := Nat.mod_lt _ (by decide)

variable {insert : KState → Nat → Nat → Nat → Option (KState × Nat)} {pageAlign : Bool}

/-- With a best fit, the code does what `place` and `removeUsed` do to the tree. -/
theorem Stored.heapAllocWith (insert : KState → Nat → Nat → Nat → Option (KState × Nat))
    (h : Stored s.mem t) (hr : s.root = ptr t) (ho : Ordered t)
    (hf : Avl.findBestFit (wanted pageAlign size) t = some best)
    (hins : pageAlign = true → insert = fun s node base size => avlInsert base size fuel s node) :
    (heapAllocWith insert pageAlign size s = none ∧ place 0 pageAlign size best t = none) ∨
    ∃ placed t' m', heapAllocWith insert pageAlign size s =
        some (add32 placed.allocAddr headerSize,
          { s with mem := m', root := ptr t' }.storeHeader placed.allocAddr size) ∧
      place 0 pageAlign size best t = some placed ∧
      Vm.removeUsed placed.base placed.size
        (Vm.setBlock best.addr placed.base placed.size placed.root) = some t' ∧
      Stored m' t' ∧ Only (addrs t) s.mem m' := by
  have hc := (Avl.findBestFit_mem hf).1
  have hne := h.addr_ne_zero hc
  have hbest := h.findBestFit (wanted pageAlign size) h.length_lt_fuel
  rw [hf, show addrOf (some best) = best.addr from rfl] at hbest
  rw [KHeap.heapAllocWith, hr, hbest, Option.bind_eq_bind, Option.bind_some, if_neg hne,
    (h.rep.cell hc).1, place]
  dsimp only
  split
  · rename_i hal
    rw [hins hal.1]
    rcases h.insertFragment hr ho hc 0 (sub32 (alignHeader best.base) best.base) with
      ⟨hx, hy⟩ | ⟨m1, t1, hx, hy, ht1, hsame, ho1⟩
    · exact .inl ⟨by rw [hx]; rfl, by rw [hy]; rfl⟩
    · obtain ⟨c, hc1, haddr, hspan⟩ := Avl.exists_same_cell hsame.1 hsame.2.1 hc
      have hspan' : c.base = best.base ∧ c.size = best.size := by simpa [Avl.Cell.span] using hspan
      obtain ⟨m2, t2, hx2, hy2, ht2, ho2⟩ := Stored.shrink
        (s := { s with mem := m1, root := ptr t1 }) ht1 rfl hc1
        (add32_lt (add32 (alignHeader best.base) headerSize) size)
        (add32 (add32 (sub32 (alignHeader best.base) best.base) headerSize) size)
      rw [haddr, hspan'.2] at hy2
      rw [haddr] at hx2
      rw [hsame.2.1] at ho2
      refine .inr ⟨_, t2, m2, ?_, by rw [hy]; rfl, hy2, ht2, ho1.trans ho2⟩
      rw [hx]
      simp only [Option.bind_eq_bind, Option.bind_some, hx2]
  · obtain ⟨m2, t2, hx2, hy2, ht2, ho2⟩ := h.shrink hr hc
      (add32_lt best.base (add32 size headerSize)) (add32 size headerSize)
    refine .inr ⟨_, t2, m2, ?_, rfl, hy2, ht2, ho2⟩
    rw [hx2]
    rfl

-- ---------------------------------------------------------------------------
-- The invariant
-- ---------------------------------------------------------------------------

def kheapEnd : Nat := kheapStart + kheapInitialSize

/-- Nothing of the area is used twice and the tree is in memory, each of its nodes
before the area or in a block that `create_node` has got for it. -/
structure Good (s : KState) (held : List Block) (t : Avl.AvlNode) : Prop where
  startAddr : s.startAddr = kheapStart
  endAddr : s.endAddr = kheapEnd
  maxSize : s.maxSize = kheapMaxSize
  root : s.root = ptr t
  stored : Stored s.mem t
  good : Vm.Good (s.view t) (held ++ s.nodes)
  homes : ∀ a ∈ addrs t, a + nodeSize ≤ kheapStart ∨ (⟨a - headerSize, nodeSize⟩ ∈ s.nodes)

variable {held : List Block} {b : Block} {f : Span}

theorem Good.tiling (h : Good s held t) :
    Tiling kheapStart kheapEnd (spans t) ((held ++ s.nodes).map Block.span) := by
  have ht := h.good.tiling
  simp only [KState.view, h.startAddr, h.endAddr] at ht
  exact ht

theorem Good.ordered (h : Good s held t) : Ordered t := h.tiling.sorted

theorem Good.node_free (h : Good s held t) (ha : a ∈ addrs t) (hf : f ∈ spans t) :
    f.stop ≤ a ∨ a + nodeSize ≤ f.base := by
  have hpos := h.tiling.pos f hf
  have hin := h.tiling.freeIn f hf
  have hlow := h.stored.store.low a ha
  rcases h.homes a ha with hout | hb
  · exact .inr (hout.trans hin.1)
  · have hd := h.tiling.apart _ (List.mem_map_of_mem (List.mem_append_right held hb)) f hf
    simp only [Block.span, Span.Disjoint, Span.stop, nodeSize, headerSize] at *
    omega

theorem Good.home_header (h : Good s held t) (hlow : nodeSize ≤ a)
    (ha : a + nodeSize ≤ kheapStart ∨ (⟨a - headerSize, nodeSize⟩ ∈ s.nodes))
    (hb : b ∈ held ++ s.nodes) : b.header + headerSize ≤ a ∨ a + nodeSize ≤ b.header := by
  have hin := h.tiling.liveIn _ (List.mem_map_of_mem hb)
  rcases ha with hout | hn
  · exact .inr (hout.trans hin.1)
  · by_cases he : b = ⟨a - headerSize, nodeSize⟩
    · subst he
      simp only [nodeSize, headerSize] at *
      omega
    · have hd := h.tiling.disjoint.forall (List.mem_map_of_mem hb)
        (List.mem_map_of_mem (List.mem_append_right held hn)) (Block.span_injective.ne he)
      simp only [Block.span, Span.Disjoint, Span.stop, nodeSize, headerSize] at *
      omega

theorem Good.headers_only (h : Good s held t) (ho : Only as s.mem m)
    (hlow : ∀ a ∈ as, nodeSize ≤ a)
    (ha : ∀ a ∈ as, a + nodeSize ≤ kheapStart ∨ (⟨a - headerSize, nodeSize⟩ ∈ s.nodes))
    (hb : b ∈ held ++ s.nodes) (h1 : b.header ≤ x) (h2 : x < b.header + headerSize) :
    m x = s.mem x := by
  refine ho x fun a has => ?_
  have := h.home_header (hlow a has) (ha a has) hb
  omega

theorem Stored.congr (h : Stored m t)
    (hm : ∀ a ∈ addrs t, ∀ x, a ≤ x → x < a + nodeSize → m' x = m x) : Stored m' t :=
  ⟨h.rep.congr fun a ha => load_congr (hm a ha), h.positive, h.bounded, h.store⟩

theorem Good.change (h : Good s held t)
    (hs : s' = { s with mem := s'.mem, root := ptr t', nodes := s'.nodes }) (ht : Stored s'.mem t')
    (hgood : Vm.Good (s'.view t') (held' ++ s'.nodes))
    (hhomes : ∀ a ∈ addrs t', a ∈ addrs t ∨ (⟨a - headerSize, nodeSize⟩ ∈ s'.nodes))
    (hnodes : s.nodes ⊆ s'.nodes) : Good s' held' t' := by
  refine ⟨(congrArg KState.startAddr hs).trans h.startAddr, (congrArg KState.endAddr hs).trans h.endAddr,
    (congrArg KState.maxSize hs).trans h.maxSize, congrArg KState.root hs, ht, hgood, fun a ha => ?_⟩
  rcases hhomes a ha with ha | hn
  · exact (h.homes a ha).imp_right fun hn => hnodes hn
  · exact .inr hn

-- ---------------------------------------------------------------------------
-- Allocation
-- ---------------------------------------------------------------------------

/-- No addition wraps for a request to the kernel heap, also if nothing fits and
the heap is to be expanded. -/
def NoWrap (pageAlign : Bool) (size : Nat) : Prop :=
  kheapEnd + (if pageAlign then pageSize else headerSize) + size + (pageSize - 1) < wordSize

instance : Decidable (NoWrap pageAlign size) := Nat.decLt _ _

theorem NoWrap.view (h : NoWrap pageAlign size) (he : s.endAddr = kheapEnd) :
    Vm.NoWrap pageAlign size (s.view t) := by
  rw [NoWrap] at h
  simp only [Vm.NoWrap, KState.view, he]
  simp only [kheapEnd, kheapStart, kheapInitialSize, pageSize, headerSize, wordSize] at *
  cases pageAlign with
  | false =>
    simp only [Bool.false_eq_true, ↓reduceIte] at *
    omega
  | true =>
    simp only [↓reduceIte] at *
    omega

theorem storeHeader_congr (s s' : KState) (hx : (s.mem x) = (s'.mem x)) :
    (s.storeHeader a size).mem x = (s'.storeHeader a size).mem x := by
  simp only [KState.storeHeader, Mem.write32, Mem.set, hx]

theorem Good.alloc (h : Good s held t) (hw : NoWrap pageAlign size)
    (hins : pageAlign = true → insert = fun s node base size => avlInsert base size fuel s node)
    (hf : Avl.findBestFit (wanted pageAlign size) t = some best)
    (hm : heapAllocWith insert pageAlign size s = some (p, s')) :
    ∃ placed t', p = placed.allocAddr + headerSize ∧ place 0 pageAlign size best t = some placed ∧
      Cut pageAlign size (s.view t) (((s.view t).setRoot t').storeHeader placed.allocAddr size) best
        placed ∧
      Vm.removeUsed placed.base placed.size
        (Vm.setBlock best.addr placed.base placed.size placed.root) = some t' ∧
      Good s' (⟨placed.allocAddr, size⟩ :: held) t' ∧ s'.nodes = s.nodes := by
  obtain ⟨hc, hsize⟩ := Avl.findBestFit_mem hf
  have hbest := Avl.mem_spans_of_mem hc
  have hin := h.tiling.freeIn _ hbest
  simp only [Avl.Cell.span, Span.Within, Span.stop] at hin
  have hend : kheapEnd < wordSize := by decide
  rw [(hw.view (s := s) (t := t) h.endAddr).wanted_eq] at hsize
  rcases h.stored.heapAllocWith insert h.root h.ordered hf hins with ⟨hx, -⟩ |
    ⟨placed, t', m', hx, hy, hz, ht', ho⟩
  · rw [hm] at hx
    cases hx
  · rw [hm] at hx
    cases hx
    have hfits := place_spec h.ordered hc (by omega) hsize hy
    obtain ⟨hord, hsub, hspans⟩ := shrink_spec h.tiling h.stored.store.nodup hc hfits hz
    have hbase := hfits.base
    have hstop := hfits.stop
    have hfront := hfits.front
    have hcut : Cut pageAlign size (s.view t)
        (((s.view t).setRoot t').storeHeader placed.allocAddr size) best placed :=
      ⟨hfits, hf, hord, hsub, hspans, rfl, rfl, rfl, rfl⟩
    refine ⟨placed, t', add32_eq (by omega), hy, hcut, hz, ?_, rfl⟩
    have hspot : ∀ q ∈ addrs t, ∀ x, q ≤ x → x < q + nodeSize →
        x < placed.allocAddr ∨ placed.allocAddr + headerSize ≤ x := fun q hq x h1 h2 => by
      have := h.node_free hq hbest
      simp only [Avl.Cell.span, Span.stop] at this
      omega
    have hsame : ∀ b ∈ ⟨placed.allocAddr, size⟩ :: (held ++ s.nodes), ∀ x, b.header ≤ x →
        x < b.header + headerSize → m' x = s.mem x := fun b hb x h1 h2 => ho x fun q hq => by
      rcases List.mem_cons.mp hb with rfl | hb
      · have := h.node_free hq hbest
        simp only [Avl.Cell.span, Span.stop] at *
        omega
      · have := h.home_header (h.stored.store.low q hq) (h.homes q hq) hb
        omega
    refine h.change rfl (ht'.congr fun q hq x h1 h2 => ?_) ?_ (fun q hq => .inl (hsub.subset hq))
      (List.Subset.refl _)
    · exact storeHeader_outside (KState.view { s with mem := m' } t)
        (hspot q (hsub.subset hq) x h1 h2)
    · exact (h.good.cut hcut).withMem fun b hb x h1 h2 =>
        storeHeader_congr { s with mem := m' } s (hsame b hb x h1 h2)

/-- The limit of the kernel heap wraps to an address before its start, so the heap
never grows. -/
theorem Good.expandHeap (h : Good s held t) (hpos : 0 < size)
    (hfit : kheapEnd + size + (pageSize - 1) < wordSize) : expandHeap size s = (0, s) := by
  have hview : (s.view .nil).heap.startAddr ≤ (s.view .nil).heap.endAddr := by
    simp only [KState.view, h.startAddr, h.endAddr]
    decide
  have hlimit : add32 s.startAddr s.maxSize < kheapStart := by
    rw [h.startAddr, h.maxSize]
    decide
  rcases expandHeap_spec size hview (by simpa only [KState.view, h.endAddr] using hfit)
    hpos with hx | ⟨-, -, hle, -⟩
  · rw [KHeap.expandHeap, hx]
    rfl
  · simp only [KState.view, h.endAddr] at hle
    simp only [kheapEnd, kheapStart, kheapInitialSize, pageSize] at *
    omega

theorem expansion_eq (h : NoWrap pageAlign size) :
    add32 (add32 (sub32 (if pageAlign then alignHeader kheapEnd else kheapEnd) kheapEnd) headerSize)
      size = (if pageAlign then pageSize else headerSize) + size := by
  rw [NoWrap] at h
  cases pageAlign with
  | false =>
    simp only [Bool.false_eq_true, ↓reduceIte] at h ⊢
    rw [show add32 (sub32 kheapEnd kheapEnd) headerSize = headerSize by decide +kernel]
    exact add32_eq (by omega)
  | true =>
    simp only [↓reduceIte] at h ⊢
    rw [show add32 (sub32 (alignHeader kheapEnd) kheapEnd) headerSize = pageSize by decide +kernel]
    exact add32_eq (by omega)

theorem heapAllocWith_none
    (hbest : findBestFit (wanted pageAlign size) s.mem fuel s.root = some 0)
    (hexpand : KHeap.expandHeap (add32 (add32 (sub32 (if pageAlign then alignHeader s.endAddr
      else s.endAddr) s.endAddr) headerSize) size) s = (0, s)) :
    heapAllocWith insert pageAlign size s = some (0, s) := by
  simp only [heapAllocWith, hbest, Option.bind_eq_bind, Option.bind_some, ↓reduceIte, hexpand]

theorem Good.alloc_none (h : Good s held t) (hw : NoWrap pageAlign size)
    (hf : Avl.findBestFit (wanted pageAlign size) t = none) :
    heapAllocWith insert pageAlign size s = some (0, s) := by
  have hpos : 0 < (if pageAlign then pageSize else headerSize) + size := by
    simp only [pageSize, headerSize]
    split <;> omega
  refine heapAllocWith_none ?_ ?_
  · rw [h.root, h.stored.findBestFit _ h.stored.length_lt_fuel, hf]
    rfl
  · rw [h.endAddr, expansion_eq hw]
    exact h.expandHeap hpos (by rw [NoWrap] at hw; omega)

theorem Good.kmalloc_some (h : Good s held t) (size : Nat) (hw : NoWrap false size) :
    ∃ p s', kmalloc size s = some (p, s') := by
  cases hf : Avl.findBestFit (wanted false size) t with
  | none => exact ⟨0, s, h.alloc_none hw hf⟩
  | some best =>
    rcases h.stored.heapAllocWith (fun _ _ _ _ => none) h.root h.ordered hf nofun with
      ⟨-, hy⟩ | ⟨placed, t', m', hx, -⟩
    · simp [place] at hy
    · exact ⟨_, _, hx⟩

-- ---------------------------------------------------------------------------
-- Node storage
-- ---------------------------------------------------------------------------

def nodeBlock : Nat := nodeSize + headerSize

theorem wanted_node : wanted false nodeSize = nodeBlock := by decide +kernel

theorem initNode_only (m : Mem) (p base size : Nat) : Only [p] m (initNode m p base size) :=
  (((setBase_only.trans setSize_only).trans setHeight_only).trans setRight_only).trans setLeft_only

theorem load_initNode (hb : base < 2 ^ 32) (hs : size < 2 ^ 32) :
    load (initNode m p base size) p = ⟨base, size, 1, 0, 0⟩ := by
  rw [initNode, load_setLeft (by decide), load_setRight (by decide),
    load_setHeight (by decide) (by decide), load_setSize hs, load_setBase hb]

theorem Stored.initNode (hb : base < 2 ^ 32) (hz : size < 2 ^ 32) (hlow : nodeSize ≤ p)
    (hhigh : p + nodeSize ≤ wordSize) :
    Stored (initNode m p base size) (Avl.createNode p base size) := by
  refine ⟨⟨load_initNode hb hz, trivial, trivial⟩, ⟨Int.one_pos, trivial, trivial⟩,
    ⟨by simp, trivial, trivial⟩, ?_⟩
  exact Store.cons ⟨by simp, by simp, by simp, List.nodup_nil⟩ hlow hhigh (by simp)

/-- Without storage the fields go to `NULL`, where nothing is. -/
theorem Good.createNode_none (h : Good s held t) (base size : Nat)
    (hf : Avl.findBestFit nodeBlock t = none) :
    ∃ s₁, createNode base size s = some (s₁, 0) ∧ Good s₁ held t ∧ s₁.nodes = s.nodes := by
  have hk : kmalloc nodeSize s = some (0, s) := h.alloc_none (by decide) (wanted_node ▸ hf)
  have ho := initNode_only s.mem 0 base size
  refine ⟨{ s with mem := initNode s.mem 0 base size }, ?_, ?_, rfl⟩
  · rw [KHeap.createNode, hk]
    rfl
  · refine h.change (by rw [← h.root]) (h.stored.congr fun a ha x h1 h2 => ho x ?_)
      (h.good.withMem fun b hb x h1 h2 => ho x ?_) (fun a ha => .inl ha) (List.Subset.refl _)
    · have := h.stored.store.low a ha
      simp only [List.mem_singleton, forall_eq]
      omega
    · have := (h.tiling.liveIn _ (List.mem_map_of_mem hb)).1
      simp only [Block.span, kheapStart, nodeSize, List.mem_singleton, forall_eq] at *
      omega

theorem Good.createNode_some (h : Good s held t) (base size : Nat)
    (hf : Avl.findBestFit nodeBlock t = some best)
    (hne : best.size ≠ nodeBlock) (hb : base < 2 ^ 32) (hz : size < 2 ^ 32) :
    ∃ s₁, createNode base size s = some (s₁, best.base + headerSize) ∧
      Good s₁ held (Vm.setBlock best.addr (best.base + nodeBlock) (best.size - nodeBlock) t) ∧
      Stored s₁.mem (Avl.createNode (best.base + headerSize) base size) ∧
      (∀ a ∈ addrs t, Clear (best.base + headerSize) a) ∧
      s₁.nodes = ⟨best.base, nodeSize⟩ :: s.nodes := by
  obtain ⟨p, s', hk⟩ := h.kmalloc_some nodeSize (by decide)
  obtain ⟨placed, t', rfl, hplace, hcut, hremove, hgood, hnodes⟩ :=
    h.alloc (by decide : NoWrap false nodeSize) nofun (wanted_node ▸ hf) hk
  obtain ⟨hc, hsize⟩ := Avl.findBestFit_mem hf
  have hbest := Avl.mem_spans_of_mem hc
  have hin := h.tiling.freeIn _ hbest
  have hend : kheapEnd < wordSize := by decide
  -- what is left of the best fit
  have hroot : placed.root = t := by
    rw [place, if_neg (by simp)] at hplace
    obtain rfl := Option.some.inj hplace
    rfl
  have hspot : placed.allocAddr = best.base := hcut.fits.spot
  have hbase := hcut.fits.base
  have hstop := hcut.fits.stop
  rw [hroot, Vm.removeUsed, if_neg (by simp only [nodeBlock] at *; omega)] at hremove
  obtain rfl := Option.some.inj hremove
  rw [show placed.base = best.base + nodeBlock by simp only [nodeBlock]; omega,
    show placed.size = best.size - nodeBlock by simp only [nodeBlock] at *; omega] at hgood
  rw [hspot] at hgood hk
  have hclear : ∀ a ∈ addrs t, Clear (best.base + headerSize) a := fun a ha => by
    have := h.node_free ha hbest
    simp only [Avl.Cell.span, Span.stop, Clear, nodeBlock] at *
    omega
  have ho := initNode_only s'.mem (best.base + headerSize) base size
  refine ⟨{ s' with
    mem := initNode s'.mem (best.base + headerSize) base size
    nodes := ⟨best.base, nodeSize⟩ :: s.nodes }, ?_, ?_, ?_, hclear, rfl⟩
  · rw [KHeap.createNode, hk]
    simp only [Option.bind_eq_bind, Option.bind_some, hnodes]
    rw [if_neg (by simp [headerSize]), Nat.add_sub_cancel]
  · refine hgood.change (by rw [← hgood.root]) (hgood.stored.only ho ?_) ?_ (fun a ha => .inl ha)
      (by rw [hnodes]; exact List.subset_cons_self _ _)
    · simpa [setBlock_addrs] using hclear
    · have hperm : (⟨best.base, nodeSize⟩ :: held ++ s'.nodes).Perm
          (held ++ ⟨best.base, nodeSize⟩ :: s.nodes) := by
        rw [hnodes]
        exact List.perm_middle.symm
      refine (hgood.good.perm hperm).withMem fun b hb x h1 h2 => ho x ?_
      simp only [List.mem_singleton, forall_eq]
      by_cases he : b = ⟨best.base, nodeSize⟩
      · subst he
        exact .inl h2
      · have hd := hgood.tiling.disjoint.forall (List.mem_map_of_mem (hperm.mem_iff.mpr hb))
          (List.mem_map_of_mem (f := Block.span) List.mem_cons_self) (Block.span_injective.ne he)
        simp only [Block.span, Span.Disjoint, Span.stop, nodeSize, headerSize] at *
        omega
  · simp only [Avl.Cell.span, Span.Within, Span.stop] at hin
    refine Stored.initNode hb hz ?_ ?_
    · simp only [kheapStart, nodeSize] at *
      omega
    · simp only [nodeBlock] at *
      omega

-- ---------------------------------------------------------------------------
-- Merging
-- ---------------------------------------------------------------------------

/-- A pointer to a node whose block is not the deleted one still reads that block,
whether the node is linked or not. -/
theorem Stored.deleted (h : Stored m t) (ho : Ordered t) (hy : Avl.avlDelete base t = some t')
    (ht' : Stored m' t') (hon : Only (addrs t') m m') (hc : c ∈ inorder t) (hne : c.base ≠ base) :
    (load m' c.addr).base = c.base ∧ (load m' c.addr).size = c.size := by
  rcases Avl.avlDelete_kept ho h.store.nodup hy hc hne with hout | ⟨c', hc', ha, hs⟩
  · rw [hon.load fun a ha => h.store.clear a ((Avl.avlDelete_addrs hy).subset ha) _
      (Avl.mem_addrs_of_mem hc) fun he => hout (he ▸ ha)]
    exact h.rep.cell hc
  · have hspan : c'.base = c.base ∧ c'.size = c.size := by simpa [Avl.Cell.span] using hs
    rw [← ha, ← hspan.1, ← hspan.2]
    exact ht'.rep.cell hc'

theorem Stored.avlDelete_some (h : Stored m t) (base : Nat) :
    ∃ m' t', KHeap.avlDelete base fuel m (ptr t) = some (m', ptr t') ∧
      Avl.avlDelete base t = some t' ∧ Stored m' t' ∧ Only (addrs t') m m' := by
  obtain ⟨t', ht', -⟩ := Avl.avlDelete_some h.positive base
  rcases h.avlDelete base h.length_lt_fuel with ⟨-, hy⟩ | hx
  · rw [ht'] at hy
    cases hy
  · exact hx

theorem Stored.mergeLeft (h : Stored s.mem t) (base size : Nat) (left : Option Cell) (hr : s.root = ptr t)
    (ho : Ordered t) (hl : ∀ c, left = some c → c ∈ inorder t) :
    ∃ b z m' t', mergeLeft (addrOf left) base size s =
        some (b, z, { s with mem := m', root := ptr t' }) ∧
      Vm.mergeLeft left base size t = some (b, z, t') ∧ Stored m' t' ∧ Only (addrs t) s.mem m' ∧
      addrs t' ⊆ addrs t ∧
      ∀ c ∈ inorder t, (∀ l, left = some l → c.base ≠ l.base) →
        (load m' c.addr).base = c.base ∧ (load m' c.addr).size = c.size := by
  cases left with
  | none => exact ⟨base, size, s.mem, t, by rw [← hr]; rfl, rfl, h, Only.refl _ _,
      List.Subset.refl _, fun c hc _ => h.rep.cell hc⟩
  | some l =>
    have hlt := hl l rfl
    obtain ⟨m', t', hx, hy, ht', hon⟩ := h.avlDelete_some l.base
    obtain ⟨hb, hs⟩ := h.rep.cell hlt
    have hsub := (Avl.avlDelete_addrs hy).subset
    refine ⟨l.base, add32 size l.size, m', t', ?_, ?_, ht', hon.mono hsub, hsub,
      fun c hc hne => ?_⟩
    · rw [KHeap.mergeLeft, if_pos (by exact h.addr_ne_zero hlt)]
      simp only [addrOf, Option.map_some, Option.getD_some, hb, hs, hr, hx]
      rfl
    · rw [Vm.mergeLeft, hy]
      rfl
    · exact h.deleted ho hy ht' hon hc (hne l rfl)

theorem Stored.mergeRight (size : Nat) (right : Option Cell) (h : Stored s.mem t) (hr : s.root = ptr t)
    (hload : ∀ c, right = some c → c.addr ≠ 0 ∧ (load s.mem c.addr).base = c.base ∧
      (load s.mem c.addr).size = c.size) :
    ∃ z m' t', mergeRight (addrOf right) size s = some (z, { s with mem := m', root := ptr t' }) ∧
      Vm.mergeRight right size t = some (z, t') ∧ Stored m' t' ∧ Only (addrs t) s.mem m' := by
  cases right with
  | none => exact ⟨size, s.mem, t, by rw [← hr]; rfl, rfl, h, Only.refl _ _⟩
  | some r =>
    obtain ⟨hne, hb, hs⟩ := hload r rfl
    obtain ⟨m', t', hx, hy, ht', hon⟩ := h.avlDelete_some r.base
    refine ⟨add32 size r.size, m', t', ?_, ?_, ht', hon.mono (Avl.avlDelete_addrs hy).subset⟩
    · rw [KHeap.mergeRight, if_pos (by exact hne)]
      simp only [addrOf, Option.map_some, Option.getD_some, hb, hs, hr, hx]
      rfl
    · rw [Vm.mergeRight, hy]
      rfl

theorem Good.mergeNeighbors (h : Good s held t) (hb : b ∈ held ++ s.nodes) :
    ∃ L R m' t', mergeNeighbors b.header (b.size + headerSize) s =
        some ((Tiling.merged L b.span R).base, (Tiling.merged L b.span R).size,
          { s with mem := m', root := ptr t' }) ∧
      Tiling.Touching (spans t) b.span L R ∧ Good { s with mem := m', root := ptr t' } held t' ∧
      ∀ x, x ∈ spans t' ↔ x ∈ spans t ∧ L ≠ some x ∧ R ≠ some x := by
  have hbs : (⟨b.header, b.size + headerSize⟩ : Span) ∈ (held ++ s.nodes).map Block.span :=
    List.mem_map_of_mem hb
  have hend : kheapEnd < wordSize := by decide
  have hpos : 0 < b.size + headerSize := by simp [headerSize]
  obtain ⟨hl, hr⟩ := findNeighbors_spec none none
    (apart_of_live h.tiling hend hbs hpos) (by simp) (by simp)
  have hn := h.stored.findNeighbors b.header (b.size + headerSize) none none
    h.stored.length_lt_fuel (by simp) (by simp)
  generalize hN : Vm.findNeighbors b.header (b.size + headerSize) t none none = N at hl hr hn
  obtain ⟨left, right⟩ := N
  dsimp only at hl hr hn
  simp only [reduceCtorEq, false_or] at hl hr
  obtain ⟨b1, z1, m1, t1, hx1, hy1, ht1, ho1, hsub1, hkept⟩ := h.stored.mergeLeft b.header
    (b.size + headerSize) left h.root h.ordered fun c hc => ((hl c).mp hc).1
  obtain ⟨z2, m2, t2, hx2, hy2, ht2, ho2⟩ := Stored.mergeRight z1 right
    (s := { s with mem := m1, root := ptr t1 }) ht1 rfl fun c hc => by
      obtain ⟨hmem, hre⟩ := (hr c).mp hc
      refine ⟨h.stored.addr_ne_zero hmem, hkept c hmem fun l hl' => ?_⟩
      have := ((hl l).mp hl').2
      omega
  obtain ⟨L, R, htouch, hm, hord, hsub, hspans⟩ : ∃ L R, Tiling.Touching (spans t) b.span L R ∧
      ⟨b1, z2⟩ = Tiling.merged L b.span R ∧ Ordered t2 ∧ (addrs t2).Sublist (addrs t) ∧
      ∀ x, x ∈ spans t2 ↔ x ∈ spans t ∧ L ≠ some x ∧ R ≠ some x :=
    merge_spec h.tiling hend hbs hpos (by rw [hN]; exact hy1) (by rw [hN]; exact hy2)
  have hbase := congrArg Span.base hm
  have hsize := congrArg Span.size hm
  dsimp only at hbase hsize
  refine ⟨L, R, m2, t2, ?_, htouch, ?_, hspans⟩
  · rw [KHeap.mergeNeighbors, h.root, show (0 : Nat) = addrOf none from rfl, hn]
    simp only [Option.bind_eq_bind, Option.bind_some, hx1, hx2]
    rw [hbase, hsize]
  · have hon : Only (addrs t) s.mem m2 := ho1.trans (ho2.mono hsub1)
    refine h.change rfl ht2 ?_ (fun a ha => .inl (hsub.subset ha)) (List.Subset.refl _)
    have hgood : Vm.Good (s.view t2) (held ++ s.nodes) := by
      refine ⟨h.good.low, h.good.high, ?_, hsub.nodup h.stored.store.nodup, h.good.headers⟩
      exact h.good.tiling.thin hord (fun x hx => ((hspans x).mp hx).1) (List.Sublist.refl _)
    exact hgood.withMem fun b hb x h1 h2 =>
      h.headers_only hon h.stored.store.low h.homes hb h1 h2

-- ---------------------------------------------------------------------------
-- Release
-- ---------------------------------------------------------------------------

/-- The best fit for the storage of the node that `kfree` makes, after the merges. -/
def nodeFit (b : Block) (s : KState) : Option (KState × Nat) := do
  let (_, _, s) ← mergeNeighbors b.header (b.size + headerSize) s
  let bestFit ← findBestFit (wanted false nodeSize) s.mem fuel s.root
  some (s, bestFit)

/-- The node storage does not use up the free block it is cut from. -/
def Spares (b : Block) (s : KState) : Prop :=
  ∀ r ∈ nodeFit b s, r.2 = 0 ∨ (load r.1.mem r.2).size ≠ nodeBlock

/-- There is storage for the node. -/
def Roomy (b : Block) (s : KState) : Prop := ∀ r ∈ nodeFit b s, r.2 ≠ 0

instance : Decidable (Spares b s) := by
  unfold Spares
  infer_instance

instance : Decidable (Roomy b s) := by
  unfold Roomy
  infer_instance

theorem Good.kfree_eq (h : Good s held t) (hb : b ∈ held ++ s.nodes) :
    kfree b.ptr s = (KHeap.mergeNeighbors b.header (b.size + headerSize) s).bind fun r =>
      (avlInsert r.1 r.2.1 fuel r.2.2 r.2.2.root).bind fun r' =>
        some (none, { r'.1 with root := r'.2 }) := by
  have hbs : (⟨b.header, b.size + headerSize⟩ : Span) ∈ (held ++ s.nodes).map Block.span :=
    List.mem_map_of_mem hb
  have hin := h.tiling.liveIn _ hbs
  have hend : kheapEnd < wordSize := by decide
  have hpos : 0 < b.size + headerSize := by simp [headerSize]
  simp only [Span.Within, Span.stop] at hin
  obtain ⟨hmagic, hsize⟩ := h.good.headers b hb
  have hmagic : s.mem.read32 b.header = heapMagic := hmagic
  have hsize : s.mem.read32 (b.header + 4) = b.size := hsize
  have hptr : sub32 b.ptr headerSize = b.header := by
    simp only [Block.ptr, headerSize] at *
    rw [sub32_eq (by omega) (by omega), Nat.add_sub_cancel]
  rw [KHeap.kfree, if_neg (by simp [Block.ptr, headerSize])]
  simp only [hptr, hmagic, hsize, ne_eq, not_true_eq_false, ↓reduceIte]
  have hvalid : ¬ (b.size + headerSize = 0 ∨ b.header < s.startAddr ∨
      add32 b.header (b.size + headerSize) > s.endAddr) := by
    rw [add32_eq (by omega), h.startAddr, h.endAddr]
    omega
  rw [add32_eq (by omega), heapFree, if_neg hvalid, h.root,
    h.stored.overlapFound h.stored.length_lt_fuel, overlapFound_live h.tiling hend hbs hpos]
  simp only [Option.bind_eq_bind, Option.bind_some, Bool.false_eq_true, ↓reduceIte]

variable {M : Span} {p : Nat}

def Gap (M : Span) (t : Avl.AvlNode) : Prop := ∀ x ∈ spans t, x.stop < M.base ∨ M.stop < x.base

theorem Gap.absent (h : Gap M t) (hc : c ∈ inorder t) : c.base ≠ M.base := by
  have := h c.span (Avl.mem_spans_of_mem hc)
  simp only [Avl.Cell.span, Span.stop] at this
  omega

theorem erase_span {nodes : List Block} (hb : b ∈ held) :
    ((held ++ nodes).map Block.span).erase b.span = (held.erase b ++ nodes).map Block.span := by
  rw [← List.map_erase Block.span_injective, List.erase_append_left _ hb]

/-- Without storage for its node the block is lost. -/
theorem Good.insert_none (h : Good s held t) (hgap : Gap M t) (hpos : 0 < M.size)
    (hf : Avl.findBestFit nodeBlock t = none)
    (hi : avlInsert M.base M.size fuel s s.root = some (s₁, p)) :
    ∃ t', Good { s₁ with root := p } (held.erase b) t' := by
  have hsub : ∀ nodes : List Block, (held.erase b ++ nodes).Sublist (held ++ nodes) := fun nodes =>
    List.erase_sublist.append (List.Sublist.refl _)
  obtain ⟨s2, hnew, h2, hnodes⟩ := h.createNode_none M.base M.size hf
  have hready : Ready M.base M.size s s2 .nil id t :=
    ⟨h.stored, by rw [BinaryTree.id_map]; exact h2.stored, by simp, by simp, Stored.nil _,
      by rw [BinaryTree.id_map]; simpa using h2.stored.store, fun _ => hnew,
      fun hm => absurd (missing_of_absent fun c hc => hgap.absent hc) hm⟩
  rw [h.root] at hi
  rcases hready.avlInsert (Nat.pos_iff_ne_zero.mp hpos) h.stored.length_lt_fuel with ⟨hx, -⟩ |
    ⟨m', t', hx, hy, ht', ho⟩
  · rw [hi] at hx
    cases hx
  · rw [hi] at hx
    cases hx
    rw [BinaryTree.id_map] at hy
    have hsame := Avl.insertLeaf_nil hy
    rw [hsame.2.1] at ho
    refine ⟨t', h2.change rfl ht' ?_ (fun a ha => .inl (hsame.2.1 ▸ ha)) (List.Subset.refl _)⟩
    have hgood : Vm.Good (s2.view t') (held.erase b ++ s2.nodes) := by
      refine ⟨h2.good.low, h2.good.high, ?_, ht'.store.nodup,
        fun b' hb' => h2.good.headers b' ((hsub _).subset hb')⟩
      refine h2.good.tiling.thin (hsame.ordered h2.ordered) (fun x hx => ?_) ((hsub _).map _)
      exact hsame.1 ▸ hx
    exact hgood.withMem fun b' hb' x h1 h2' => h2.headers_only ho h2.stored.store.low h2.homes
      ((hsub _).subset hb') h1 h2'

/-- With storage that leaves something of the best fit, the block is back in the
tree. -/
theorem Good.insert_some (h : Good s held t) (hb : b ∈ held) (hgap : Gap M t) (hpos : 0 < M.size)
    (hin : M.Within kheapStart kheapEnd)
    (hlive : ∀ x ∈ ((held ++ s.nodes).map Block.span).erase b.span, x.Disjoint M)
    (hf : Avl.findBestFit nodeBlock t = some best) (hne : best.size ≠ nodeBlock)
    (hi : avlInsert M.base M.size fuel s s.root = some (s₁, p)) :
    ∃ t', Good { s₁ with root := p } (held.erase b) t' ∧ M ∈ spans t' := by
  obtain ⟨hc, hsize⟩ := Avl.findBestFit_mem hf
  have hbest := hgap best.span (Avl.mem_spans_of_mem hc)
  have hend : kheapEnd < wordSize := by decide
  simp only [Span.Within, Span.stop, Avl.Cell.span, wordSize] at hin hbest hend
  obtain ⟨s2, hnew, h2, hleaf, hclear, hnodes⟩ := h.createNode_some M.base
    M.size hf hne (by omega) (by omega)
  have hnd := h.stored.store.nodup
  have hstore : Store ((best.base + headerSize) :: addrs (Vm.setBlock best.addr
      (best.base + nodeBlock) (best.size - nodeBlock) t)) :=
    h2.stored.store.cons (hleaf.store.low _ (by simp [Avl.createNode]))
      (hleaf.store.high _ (by simp [Avl.createNode])) (by rw [setBlock_addrs]; exact hclear)
  -- the shrunk block is on the same side of the merged one
  have hready : Ready M.base M.size s s2 (Avl.createNode (best.base + headerSize) M.base M.size)
      (fun c => if c.addr = best.addr then
        { c with base := best.base + nodeBlock, size := best.size - nodeBlock } else c) t := by
    refine ⟨h.stored, h2.stored, fun c hc' => ?_, fun c => ?_, hleaf, ?_, fun _ => hnew,
      fun hm => absurd (missing_of_absent fun c hc => hgap.absent hc) hm⟩
    · split
      · rename_i ha
        obtain rfl := List.inj_on_of_nodup_map hnd hc' hc ha
        simp only [nodeBlock] at *
        omega
      · exact ⟨Iff.rfl, Iff.rfl⟩
    · split <;> rfl
    · exact hstore
  rw [h.root] at hi
  rcases hready.avlInsert (Nat.pos_iff_ne_zero.mp hpos) h.stored.length_lt_fuel with ⟨hx, -⟩ |
    ⟨m', t', hx, hy, ht', ho⟩
  · rw [hi] at hx
    cases hx
  · rw [hi] at hx
    cases hx
    rw [Avl.insertLeaf_createNode] at hy
    obtain ⟨hord, hset⟩ := setBlock_spans (best.base + nodeBlock)
      (best.size - nodeBlock) h.tiling hnd hc (by omega) (by omega)
    have hgap3 : Gap M (Vm.setBlock best.addr (best.base + nodeBlock) (best.size - nodeBlock) t) := by
      intro x hx
      rcases (hset x).mp hx with ⟨hx, -⟩ | rfl
      · exact hgap x hx
      · simp only [Span.stop]
        omega
    have hspans := Avl.insert_go_spans hord hy
    have hmem : ∀ x, x ∈ spans t' ↔ x = M ∨ x ∈ spans (Vm.setBlock best.addr
        (best.base + nodeBlock) (best.size - nodeBlock) t) := fun x => by
      rw [hspans]
      refine mem_insertKey_absent fun y hy => ?_
      have := hgap3 y hy
      simp only [Span.stop] at this
      show y.base ≠ M.base
      omega
    have hlive3 : ∀ x ∈ ((held ++ s2.nodes).map Block.span).erase b.span, x.Disjoint M := by
      rw [erase_span hb, hnodes]
      rw [erase_span hb] at hlive
      intro x hx
      obtain ⟨d, hd, rfl⟩ := List.mem_map.mp hx
      rcases List.mem_cons.mp (List.perm_middle.mem_iff.mp hd) with rfl | hd
      · simp only [Block.span, Span.Disjoint, Span.stop, nodeBlock] at *
        omega
      · exact hlive _ (List.mem_map_of_mem hd)
    have hput := h2.tiling.put (List.mem_map_of_mem (List.mem_append_left _ hb)) hin hpos hlive3
      (by rw [hspans]; exact Sorted.insertKey hord)
      fun x hx => ((hmem x).mp hx).imp_right fun hx => ⟨hx, hgap3 x hx⟩
    rw [erase_span hb] at hput
    have hhomes : ∀ a ∈ addrs t', a ∈ addrs (Vm.setBlock best.addr (best.base + nodeBlock)
        (best.size - nodeBlock) t) ∨ (⟨a - headerSize, nodeSize⟩ ∈ s2.nodes) := fun a ha => by
      rcases Avl.insert_go_addrs hy with heq | hp
      · exact .inl (heq ▸ ha)
      · rcases List.mem_cons.mp (hp.mem_iff.mp ha) with rfl | ha
        · right
          rw [hnodes, Nat.add_sub_cancel]
          exact List.mem_cons_self
        · exact .inl ha
    have hsub : (held.erase b ++ s2.nodes).Sublist (held ++ s2.nodes) :=
      List.erase_sublist.append (List.Sublist.refl _)
    refine ⟨t', h2.change rfl ht' ?_ hhomes (List.Subset.refl _), (hmem M).mpr (.inl rfl)⟩
    have hgood : Vm.Good (s2.view t') (held.erase b ++ s2.nodes) := by
      refine ⟨h2.good.low, h2.good.high, ?_, ht'.store.nodup,
        fun b' hb' => h2.good.headers b' (hsub.subset hb')⟩
      simp only [KState.view, h2.startAddr, h2.endAddr]
      exact hput
    refine hgood.withMem fun b' hb' x h1 h2' => h2.headers_only ho ht'.store.low (fun a ha => ?_)
      (hsub.subset hb') h1 h2'
    rcases hhomes a ha with ha | hn
    · exact h2.homes a ha
    · exact .inr hn

/-- `kfree` keeps the heap good, if the node storage does not use up a free block;
and if there is such storage, the block is free afterwards, merged or not. -/
theorem Good.kfree {message : Option Message} (h : Good s held t) (hb : b ∈ held)
    (hspare : Spares b s) (hk : kfree b.ptr s = some (message, s')) :
    ∃ t', Good s' (held.erase b) t' ∧
      (Roomy b s → ∃ x ∈ spans t', b.size + headerSize ≤ x.size) := by
  have hb' : b ∈ held ++ s.nodes := List.mem_append_left _ hb
  have hbs := List.mem_map_of_mem (f := Block.span) hb'
  have hbpos : 0 < b.span.size := by simp [Block.span, headerSize]
  obtain ⟨L, R, m2, t2, hmerge, htouch, h2, hspans⟩ := h.mergeNeighbors hb'
  rw [h.kfree_eq hb', hmerge, Option.bind_some] at hk
  obtain ⟨⟨s₁, p⟩, hi, hs'⟩ := Option.bind_eq_some_iff.mp hk
  obtain rfl := (Prod.mk.inj (Option.some.inj hs')).2
  have hgap : Gap (Tiling.merged L b.span R) t2 := fun x hx => by
    obtain ⟨hx, hl, hr⟩ := (hspans x).mp hx
    exact Tiling.Touching.gap h.tiling hbs hbpos htouch hx hl hr
  have hpos := Tiling.merged_pos L R hbpos
  have hfit : nodeFit b s = some ({ s with mem := m2, root := ptr t2 },
      addrOf (Avl.findBestFit nodeBlock t2)) := by
    rw [nodeFit, hmerge, wanted_node]
    simp only [Option.bind_eq_bind, Option.bind_some]
    rw [h2.stored.findBestFit _ h2.stored.length_lt_fuel]
    rfl
  cases hf : Avl.findBestFit nodeBlock t2 with
  | none =>
    obtain ⟨t', h'⟩ := h2.insert_none (b := b) hgap hpos hf hi
    refine ⟨t', h', fun hroomy => absurd ?_ (hroomy _ hfit)⟩
    rw [hf]
    rfl
  | some best =>
    have hne : best.size ≠ nodeBlock := by
      have hc := (Avl.findBestFit_mem hf).1
      rw [hf] at hfit
      have := (hspare _ hfit).resolve_left (h2.stored.addr_ne_zero hc)
      rwa [← (h2.stored.rep.cell hc).2]
    obtain ⟨t', h', hM⟩ := h2.insert_some hb hgap hpos (htouch.within h.tiling hbs)
      (fun x hx => htouch.disjoint h.tiling hbs hx) hf hne hi
    refine ⟨t', h', fun _ => ⟨_, hM, ?_⟩⟩
    simp only [Tiling.merged, Block.span]
    omega

end

end Shigure.Vm.KHeap
