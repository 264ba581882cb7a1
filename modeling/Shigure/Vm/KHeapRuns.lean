import Shigure.Vm.KHeapLaws

/-!
# Runs of the kernel heap

Any sequence of `kmalloc`, `ikmalloc`, `kfree` of what is held, and stores of the
callers into the blocks they hold, from the heap that `vm_initialize` makes. As
long as no `kfree` gets the storage for its node by using up a free block, live
blocks, node storage and free blocks never overlap. The run that breaks this frees
a block while the best fit for the node is a block of exactly its size.

The heap never grows, and a block whose node finds no storage is lost when it is
freed, so freed memory need not be there for the next request of its size.
-/

namespace Shigure.Vm.KHeap

open Avl (Cell addrs spans)

structure RunState where
  heap : KState
  held : List Block

def RunState.live (s : RunState) : List Block := s.held ++ s.heap.nodes

inductive Call
  | kmalloc (size : Nat)
  | ikmalloc (size : Nat) (pageAlign : Bool)
  | kfree (b : Block)
  | store (addr : Nat) (value : BitVec 8)

def RunState.take (s : RunState) (size : Nat) : Nat × KState → RunState
  | (p, heap) => ⟨heap, if p = 0 then s.held else ⟨p - headerSize, size⟩ :: s.held⟩

def Call.step (s : RunState) : Call → Option RunState
  | .kmalloc size => (KHeap.kmalloc size s.heap).map (s.take size)
  | .ikmalloc size pageAlign => (KHeap.ikmalloc size pageAlign s.heap).map (s.take size)
  | .kfree b => (KHeap.kfree b.ptr s.heap).map fun r => ⟨r.2, s.held.erase b⟩
  | .store addr value => some { s with heap := { s.heap with mem := s.heap.mem.set addr value } }

def Call.Legal (s : RunState) : Call → Prop
  | .kmalloc size => NoWrap false size
  | .ikmalloc size pageAlign => NoWrap pageAlign size
  | .kfree b => b ∈ s.held
  | .store addr _ => ∃ b ∈ s.held, b.ptr ≤ addr ∧ addr < b.ptr + b.size

/-- The calls that do not reach the defect. -/
def Call.Careful (s : RunState) (c : Call) : Prop :=
  c.Legal s ∧ ∀ b, c = .kfree b → Spares b s.heap

instance : Decidable (Call.Legal s c) := by
  cases c <;> unfold Call.Legal <;> infer_instance

instance : Decidable (Call.Careful s c) := by
  refine @instDecidableAnd _ _ inferInstance ?_
  cases c with
  | kfree b => exact decidable_of_iff (Spares b s.heap) (by simp)
  | kmalloc size => exact isTrue nofun
  | ikmalloc size pageAlign => exact isTrue nofun
  | store addr value => exact isTrue nofun

/-- Where `placement_address` is when `heap_init` is called, and what is in memory:
the early kernel memory lies before the heap. -/
structure Boot where
  placementAddress : Nat
  mem : Mem
  fits : placementAddress + heapSize + nodeSize ≤ kheapStart

def Boot.init (b : Boot) : RunState := ⟨kheapInit b.placementAddress b.mem, []⟩

-- ---------------------------------------------------------------------------
-- The free tree in memory
-- ---------------------------------------------------------------------------

inductive InTree (m : Mem) (p : Nat) : Nat → Prop
  | here : p ≠ 0 → InTree m p p
  | left : root ≠ 0 → InTree m p (load m root).left → InTree m p root
  | right : root ≠ 0 → InTree m p (load m root).right → InTree m p root

def rangeAt (m : Mem) (p : Nat) : Span := ⟨(load m p).base, (load m p).size⟩

/-- Live blocks, node storage included, and the blocks of the free tree are all
apart from each other. -/
structure AllApart (s : RunState) : Prop where
  live : (s.live.map Block.span).Pairwise Span.Disjoint
  liveFree : ∀ b ∈ s.live, ∀ p, InTree s.heap.mem p s.heap.root →
    b.span.Disjoint (rangeAt s.heap.mem p)
  free : ∀ p q, InTree s.heap.mem p s.heap.root → InTree s.heap.mem q s.heap.root → p ≠ q →
    (rangeAt s.heap.mem p).Disjoint (rangeAt s.heap.mem q)

section
variable {m : Mem} {s s' : RunState} {t : Avl.AvlNode} {p q size : Nat}

theorem Stored.inTree (h : Stored m t) (hp : InTree m p (ptr t)) :
    ∃ c ∈ inorder t, c.addr = p ∧ rangeAt m p = c.span := by
  induction t with
  | nil =>
    cases hp with
    | here h0 => exact absurd rfl h0
    | left h0 => exact absurd rfl h0
    | right h0 => exact absurd rfl h0
  | node c l r ihl ihr =>
    have hn := h.half.node
    cases hp with
    | here => exact ⟨c, by simp, rfl, by simp [rangeAt, hn, Avl.Cell.span]⟩
    | left _ hp =>
      rw [ptr_node, hn] at hp
      obtain ⟨d, hd, h⟩ := ihl h.half.left hp
      exact ⟨d, by simp [hd], h⟩
    | right _ hp =>
      rw [ptr_node, hn] at hp
      obtain ⟨d, hd, h⟩ := ihr h.half.right hp
      exact ⟨d, by simp [hd], h⟩

theorem Good.allApart (h : Good s.heap s.held t) : AllApart s := by
  have hroot := h.root
  refine ⟨h.tiling.disjoint, fun b hb p hp => ?_, fun p q hp hq hne => ?_⟩
  · rw [hroot] at hp
    obtain ⟨c, hc, -, hspan⟩ := h.stored.inTree hp
    rw [hspan]
    exact h.tiling.apart _ (List.mem_map_of_mem hb) _ (Avl.mem_spans_of_mem hc)
  · rw [hroot] at hp hq
    obtain ⟨c, hc, rfl, hspan⟩ := h.stored.inTree hp
    obtain ⟨d, hd, rfl, hspan'⟩ := h.stored.inTree hq
    rw [hspan, hspan']
    rcases h.tiling.cases (Avl.mem_spans_of_mem hc) (Avl.mem_spans_of_mem hd) with he | hlt | hlt
    · -- one block is in one node only
      have hb : c.base = d.base := congrArg Span.base he
      exact absurd (by rw [h.ordered.cells.eq_of_key hc hd hb]) hne
    · exact .inr (.inr (.inl hlt.le))
    · exact .inr (.inr (.inr hlt.le))

-- ---------------------------------------------------------------------------
-- The invariant along a run
-- ---------------------------------------------------------------------------

theorem Boot.init_good (b : Boot) : Good b.init.heap b.init.held
    (Avl.createNode (b.placementAddress + heapSize) kheapStart kheapInitialSize) := by
  have hfits := b.fits
  have hnode : add32 b.placementAddress heapSize = b.placementAddress + heapSize := by
    refine add32_eq ?_
    simp only [heapSize, nodeSize, kheapStart, wordSize] at *
    omega
  have hinit : kheapInit b.placementAddress b.mem =
      ⟨initNode b.mem (b.placementAddress + heapSize) kheapStart kheapInitialSize,
        b.placementAddress + heapSize, kheapStart, kheapEnd, kheapMaxSize, false, false, [], []⟩ := by
    rw [kheapInit, heapInit, hnode, show align kheapStart pageSize = kheapStart by decide +kernel,
      show align (kheapStart + kheapInitialSize) pageSize = kheapEnd by decide +kernel]
    rfl
  have hstored : Stored (initNode b.mem (b.placementAddress + heapSize) kheapStart kheapInitialSize)
      (Avl.createNode (b.placementAddress + heapSize) kheapStart kheapInitialSize) := by
    refine Stored.initNode (by decide) (by decide) ?_ ?_ <;>
      simp only [heapSize, nodeSize, kheapStart, wordSize] at * <;> omega
  have htile : Tiling kheapStart kheapEnd (spans (Avl.createNode (b.placementAddress + heapSize)
      kheapStart kheapInitialSize)) [] := by
    have hfull := Tiling.startFull (show kheapStart < kheapEnd by decide)
    rwa [show kheapEnd - kheapStart = kheapInitialSize by decide] at hfull
  have hle : kheapStart ≤ kheapEnd := by decide
  have hlt : kheapEnd < wordSize := by decide
  rw [Boot.init, hinit]
  refine ⟨rfl, rfl, rfl, rfl, hstored, ⟨hle, hlt, htile, hstored.store.nodup, by simp⟩,
    fun a ha => .inl ?_⟩
  · obtain rfl : a = b.placementAddress + heapSize := by simpa [Avl.createNode] using ha
    exact hfits

theorem Good.store {addr : Nat} {value : BitVec 8} {b : Block} (h : Good s.heap s.held t)
    (hb : b ∈ s.held) (h1 : b.ptr ≤ addr) (h2 : addr < b.ptr + b.size) :
    Good { s.heap with mem := s.heap.mem.set addr value } s.held t := by
  refine h.change (by rw [← h.root]) (h.stored.congr fun a ha x hx1 hx2 => if_neg ?_) ?_
    (fun a ha => .inl ha) (List.Subset.refl _)
  · rintro rfl
    have hd := (List.pairwise_append.mp (List.map_append ▸ h.tiling.disjoint)).2.2 b.span
      (List.mem_map_of_mem hb)
    have hin := h.tiling.liveIn _ (List.mem_map_of_mem (List.mem_append_left _ hb))
    have hlow := h.stored.store.low a ha
    simp only [Block.ptr] at h1 h2
    rcases h.homes a ha with hout | hn
    · simp only [Span.Within, Block.span] at hin
      omega
    · have := hd _ (List.mem_map_of_mem hn)
      simp only [Block.span, Span.Disjoint, Span.stop, nodeSize, headerSize] at *
      omega
  · exact h.good.store (List.mem_append_left _ hb) h1 h2

theorem Good.take {insert : KState → Nat → Nat → Nat → Option (KState × Nat)} {pageAlign : Bool}
    {heap : KState} (h : Good s.heap s.held t) (hw : NoWrap pageAlign size)
    (hins : pageAlign = true → insert = fun s node base size => avlInsert base size fuel s node)
    (hm : heapAllocWith insert pageAlign size s.heap = some (p, heap)) :
    (p ≠ 0 → headerSize ≤ p) ∧
      ∃ t', Good (s.take size (p, heap)).heap (s.take size (p, heap)).held t' := by
  cases hf : Avl.findBestFit (wanted pageAlign size) t with
  | none =>
    rw [h.alloc_none hw hf] at hm
    cases hm
    exact ⟨fun h0 => absurd rfl h0, t, h⟩
  | some best =>
    obtain ⟨placed, t', rfl, -, -, -, hgood, -⟩ := h.alloc hw hins hf hm
    refine ⟨fun _ => Nat.le_add_left _ _, t', ?_⟩
    rw [RunState.take, if_neg (by simp [headerSize]), Nat.add_sub_cancel]
    exact hgood

theorem Good.ikmalloc {heap heap' : KState} {held : List Block} {pageAlign : Bool}
    (h : Good heap held t) (hw : NoWrap pageAlign size)
    (hm : ikmalloc size pageAlign heap = some (p, heap')) :
    (p = 0 ∧ heap' = heap) ∨
      (headerSize ≤ p ∧ (pageAlign = true → pageSize ∣ p) ∧
        ∃ t', Good heap' (⟨p - headerSize, size⟩ :: held) t') := by
  rw [KHeap.ikmalloc, heapAlloc] at hm
  cases hf : Avl.findBestFit (wanted pageAlign size) t with
  | none =>
    rw [h.alloc_none hw hf] at hm
    cases hm
    exact .inl ⟨rfl, rfl⟩
  | some best =>
    obtain ⟨placed, t', rfl, -, hcut, -, hgood, -⟩ := h.alloc hw (fun _ => rfl) hf hm
    refine .inr ⟨Nat.le_add_left _ _, hcut.fits.aligned, t', ?_⟩
    rwa [Nat.add_sub_cancel]

theorem Good.block_in {heap : KState} {held : List Block} {b : Block} (h : Good heap held t)
    (hb : b ∈ held) : kheapStart ≤ b.header ∧ b.header + b.size + headerSize ≤ kheapEnd := by
  have hin := h.tiling.liveIn _ (List.mem_map_of_mem (List.mem_append_left _ hb))
  simp only [Span.Within, Span.stop, Block.span] at hin
  omega

theorem Good.block_ne {heap : KState} {held : List Block} {b b' : Block}
    (h : Good heap (b :: held) t) (hb : b' ∈ held) : b'.ptr ≠ b.ptr := by
  have hd := (List.pairwise_cons.mp (List.map_cons ▸ h.tiling.disjoint)).1 b'.span
    (List.mem_map_of_mem (List.mem_append_left _ hb))
  simp only [Span.Disjoint, Span.stop, Block.span, Block.ptr, headerSize] at hd ⊢
  omega

theorem Good.step {c : Call} (h : Good s.heap s.held t) (hc : c.Careful s) (hs : c.step s = some s') :
    ∃ t', Good s'.heap s'.held t' := by
  obtain ⟨hlegal, hspare⟩ := hc
  cases c with
  | kmalloc size =>
    obtain ⟨⟨p, heap⟩, hm, rfl⟩ := Option.map_eq_some_iff.mp hs
    exact (h.take hlegal nofun hm).2
  | ikmalloc size pageAlign =>
    obtain ⟨⟨p, heap⟩, hm, rfl⟩ := Option.map_eq_some_iff.mp hs
    exact (h.take hlegal (fun _ => rfl) hm).2
  | kfree b =>
    obtain ⟨⟨message, heap⟩, hm, rfl⟩ := Option.map_eq_some_iff.mp hs
    obtain ⟨t', h', -⟩ := h.kfree hlegal (hspare b rfl) hm
    exact ⟨t', h'⟩
  | store addr value =>
    obtain rfl := Option.some.inj hs
    obtain ⟨b, hb, h1, h2⟩ := hlegal
    exact ⟨t, h.store hb h1 h2⟩

theorem good_of_reach {b : Boot} (hr : Reach Call.Careful Call.step b.init s) :
    ∃ t, Good s.heap s.held t :=
  hr.invariant (fun s => ∃ t, Good s.heap s.held t) ⟨_, b.init_good⟩
    fun _ _ _ ⟨_, h⟩ hc hs => h.step hc hs

/-- Along every run in which no `kfree` uses up a free block for its node, nothing
overlaps. -/
theorem kheap_all_apart {b : Boot} (hr : Reach Call.Careful Call.step b.init s) : AllApart s := by
  obtain ⟨t, h⟩ := good_of_reach hr
  exact h.allApart

/-- The node of the first free block at 2 MiB, in memory full of zeros. -/
def boot : Boot := ⟨0x1FFFEC, fun _ => 0#8, by decide⟩

theorem kheap_all_apart_three : ∃ s : RunState, s.live.length = 3 ∧ AllApart s := by
  obtain ⟨s, hr, hlen⟩ := Reach.exists_of_exec Call.Careful Call.step boot.init
    (fun s => s.live.length = 3)
    [.kmalloc 16, .kmalloc 28, .store 0xC0000008 0xFF#8, .kfree ⟨0xC0000000, 16⟩,
      .ikmalloc 8 true] (by decide +kernel)
  exact ⟨s, hlen, kheap_all_apart hr⟩

/-- The last `kfree` takes the storage for its node from a free block of exactly that
size. `avl_delete` gives the node of this block, the root, the block of its
successor, and the insertion on its way up links the successor's node back in. -/
theorem free_block_twice : ¬ ∀ (b : Boot) (s : RunState),
    Reach Call.Legal Call.step b.init s → AllApart s := by
  intro h
  obtain ⟨s, hr, hroot, hright, hp, hq⟩ := Reach.exists_of_exec Call.Legal Call.step boot.init
    (fun s => s.heap.root = 0xC0000098 ∧
      (load s.heap.mem 0xC0000098).right = 0x200000 ∧
      rangeAt s.heap.mem 0xC0000098 = ⟨0xC00000AC, 0xFFF54⟩ ∧
      rangeAt s.heap.mem 0x200000 = ⟨0xC00000AC, 0xFFF54⟩)
    [.kmalloc 16, .kmalloc 28, .kmalloc 20, .kfree ⟨0xC0000000, 16⟩, .kmalloc 20,
      .kfree ⟨0xC000003C, 20⟩, .kfree ⟨0xC0000074, 20⟩] (by decide +kernel)
  have hin : InTree s.heap.mem 0xC0000098 s.heap.root := by
    rw [hroot]
    exact .here (by decide)
  have hin' : InTree s.heap.mem 0x200000 s.heap.root := by
    rw [hroot]
    refine .right (by decide) ?_
    rw [hright]
    exact .here (by decide)
  have hd := (h boot s hr).free _ _ hin hin' (by decide)
  rw [hp, hq] at hd
  exact absurd hd (by decide)

-- ---------------------------------------------------------------------------
-- Using freed memory again
-- ---------------------------------------------------------------------------

/-- `p` is on the way to the right from the pointer, where `find_best_fit` goes. -/
inductive OnSpine (m : Mem) (p : Nat) : Nat → Prop
  | here : p ≠ 0 → OnSpine m p p
  | right : root ≠ 0 → OnSpine m p (load m root).right → OnSpine m p root

/-- If a free block is large enough, one on the right spine is. -/
def SpineFits (size : Nat) (s : KState) : Prop :=
  (∃ p, InTree s.mem p s.root ∧ wanted false size ≤ (load s.mem p).size) →
    ∃ p, OnSpine s.mem p s.root ∧ wanted false size ≤ (load s.mem p).size

theorem Stored.mem_inTree (h : Stored m t) (hc : c ∈ inorder t) : InTree m c.addr (ptr t) := by
  induction t with
  | nil => cases hc
  | node d l r ihl ihr =>
    have hn := h.half.node
    rcases List.mem_append.mp hc with hc | hc
    · refine .left h.store.head.1 ?_
      rw [ptr_node, hn]
      exact ihl h.half.left hc
    · rcases List.mem_cons.mp hc with rfl | hc
      · exact .here h.store.head.1
      · refine .right h.store.head.1 ?_
        rw [ptr_node, hn]
        exact ihr h.half.right hc

theorem Stored.onSpine (h : Stored m t) (hp : OnSpine m p (ptr t)) :
    ∃ c ∈ Avl.rightSpine t, (load m p).size = c.size := by
  induction t with
  | nil =>
    cases hp with
    | here h0 => exact absurd rfl h0
    | right h0 => exact absurd rfl h0
  | node c l r _ ihr =>
    have hn := h.half.node
    cases hp with
    | here => exact ⟨c, by simp [Avl.rightSpine], by rw [ptr_node, hn]⟩
    | right _ hp =>
      rw [ptr_node, hn] at hp
      obtain ⟨d, hd, h⟩ := ihr h.half.right hp
      exact ⟨d, by simp [Avl.rightSpine, hd], h⟩

/-- `kmalloc` succeeds if a free block is large enough and the search does not
miss it. -/
theorem Good.kmalloc_found {heap : KState} {held : List Block} (h : Good heap held t)
    (hw : NoWrap false size) (hfree : ∃ x ∈ spans t, size + headerSize ≤ x.size)
    (hspine : SpineFits size heap) : ∃ q heap', kmalloc size heap = some (q, heap') ∧ q ≠ 0 := by
  have hwant : wanted false size = size + headerSize := by
    rw [(hw.view (s := heap) (t := t) h.endAddr).wanted_eq]
    rfl
  obtain ⟨x, hx, hle⟩ := hfree
  obtain ⟨c, hc, rfl⟩ := List.mem_map.mp hx
  obtain ⟨q, hq, hqsize⟩ := hspine ⟨c.addr, h.root ▸ h.stored.mem_inTree hc, by
    rw [(h.stored.rep.cell hc).2, hwant]
    exact hle⟩
  rw [h.root] at hq
  obtain ⟨d, hd, hdsize⟩ := h.stored.onSpine hq
  obtain ⟨best, hf⟩ := Option.isSome_iff_exists.mp
    (Avl.findBestFit_isSome.mpr ⟨d, hd, hdsize ▸ hqsize⟩)
  obtain ⟨p, heap', hm⟩ := h.kmalloc_some size hw
  obtain ⟨placed, -, rfl, -⟩ := h.alloc hw nofun hf hm
  exact ⟨_, heap', hm, by simp [headerSize]⟩

/-- What `kmalloc` has returned and `kfree` has taken back can be had again, if there
was storage for the node of the freed block, which did not use up a free block,
and if the search does not miss a block that is large enough. -/
theorem freed_memory_reusable {b : Boot} {heap heap' : KState} {message : Option Message}
    (hr : Reach Call.Careful Call.step b.init s) (hw : Call.Legal s (.kmalloc size))
    (hm : kmalloc size s.heap = some (p, heap)) (hp : p ≠ 0)
    (hspare : Spares ⟨p - headerSize, size⟩ heap) (hroomy : Roomy ⟨p - headerSize, size⟩ heap)
    (hf : kfree p heap = some (message, heap')) (hspine : SpineFits size heap') :
    ∃ q heap'', kmalloc size heap' = some (q, heap'') ∧ q ≠ 0 := by
  obtain ⟨t, h⟩ := good_of_reach hr
  obtain ⟨hle, t1, h1⟩ := h.take hw nofun hm
  have hptr : p = Block.ptr ⟨p - headerSize, size⟩ := (Nat.sub_add_cancel (hle hp)).symm
  rw [RunState.take, if_neg hp] at h1
  rw [hptr] at hf
  obtain ⟨t2, h2, hfree⟩ := h1.kfree List.mem_cons_self hspare hf
  exact h2.kmalloc_found hw (hfree hroomy) hspine

theorem freed_memory_reusable_second : ∃ (heap : KState) (q : Nat) (heap' : KState),
    kmalloc 8 heap = some (q, heap') ∧ q ≠ 0 := by
  obtain ⟨s, hr, hrun⟩ := Reach.exists_of_exec Call.Careful Call.step boot.init
    (fun s => (kmalloc 8 s.heap).any (fun r => decide (r.1 = 0xC0000008) &&
      decide (Spares ⟨0xC0000000, 8⟩ r.2) && decide (Roomy ⟨0xC0000000, 8⟩ r.2) &&
      (kfree 0xC0000008 r.2).any fun r' => decide (r'.2.root ≠ 0) &&
        decide (wanted false 8 ≤ (load r'.2.mem r'.2.root).size)) = true)
    [.kmalloc 16, .kmalloc 16, .kfree ⟨0xC0000000, 16⟩] (by decide +kernel)
  obtain ⟨⟨p, heap⟩, hm, hrest⟩ := (Option.any_eq_true _ _).mp hrun
  simp only [Bool.and_eq_true, decide_eq_true_eq] at hrest
  obtain ⟨⟨⟨rfl, hspare⟩, hroomy⟩, hrest⟩ := hrest
  obtain ⟨⟨message, heap'⟩, hf, hroot⟩ := (Option.any_eq_true _ _).mp hrest
  simp only [Bool.and_eq_true, decide_eq_true_eq] at hroot
  have hspine : SpineFits 8 heap' := fun _ => ⟨heap'.root, .here hroot.1, hroot.2⟩
  have hw : NoWrap false 8 := by decide
  obtain ⟨q, heap'', hq⟩ := freed_memory_reusable hr hw hm (by decide) hspare hroomy hf hspine
  exact ⟨heap', q, heap'', hq⟩

/-- The first block that is ever freed merges with the only free block, so that there
is no storage for the node of the result: the whole heap is lost. -/
theorem freed_memory_lost : ¬ ∀ (b : Boot) (s : RunState) (size p : Nat) (heap heap' : KState)
    (message : Option Message), Reach Call.Legal Call.step b.init s →
    kmalloc size s.heap = some (p, heap) → p ≠ 0 → kfree p heap = some (message, heap') →
    ∃ q heap'', kmalloc size heap' = some (q, heap'') ∧ q ≠ 0 := by
  intro h
  have hrun : (kmalloc 16 boot.init.heap).any (fun r => decide (r.1 ≠ 0) &&
      (kfree r.1 r.2).any fun r' => (kmalloc 16 r'.2).any fun r'' => decide (r''.1 = 0)) = true := by
    decide +kernel
  obtain ⟨⟨p, heap⟩, hm, hrest⟩ := (Option.any_eq_true _ _).mp hrun
  simp only [Bool.and_eq_true, decide_eq_true_eq] at hrest
  obtain ⟨hp, hrest⟩ := hrest
  obtain ⟨⟨message, heap'⟩, hf, hrest⟩ := (Option.any_eq_true _ _).mp hrest
  obtain ⟨⟨q, heap''⟩, hm', hq⟩ := (Option.any_eq_true _ _).mp hrest
  obtain ⟨q', heap₃, hm'', hq'⟩ := h boot boot.init 16 p heap heap' message .refl hm hp hf
  rw [hm'] at hm''
  cases hm''
  exact hq' (of_decide_eq_true hq)

end

end Shigure.Vm.KHeap
