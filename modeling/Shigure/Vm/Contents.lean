import Shigure.Lib.Holes
import Shigure.Vm.KHeapRuns

/-!
# What callers keep in the kernel heap

The heap writes to the headers of new blocks and to the nodes of its tree, which lie
before the area or in blocks of their own. So a block that is held is a memory by
itself. A node never comes back, so that every `kfree` wears the heap out a bit more.
-/

namespace Shigure.Vm.KHeap

open Avl (Cell addrs spans)

def Kept (bs : List Block) (m m' : Mem) : Prop :=
  ∀ b ∈ bs, ∀ i < b.size, m' (b.ptr + i) = m (b.ptr + i)

section
variable {s s' s₁ s₂ : KState} {held : List Block} {t t' : Avl.AvlNode} {b : Block} {best : Cell}
  {m m' m'' : Mem} {as : List Nat} {M : Span} {p size : Nat} {pageAlign : Bool}
  {insert : KState → Nat → Nat → Nat → Option (KState × Nat)}

theorem Kept.refl (bs : List Block) (m : Mem) : Kept bs m m := fun _ _ _ _ => rfl

theorem Kept.trans (h : Kept held m m') (h' : Kept held m' m'') : Kept held m m'' :=
  fun b hb i hi => (h' b hb i hi).trans (h b hb i hi)

-- ---------------------------------------------------------------------------
-- Writes of the heap
-- ---------------------------------------------------------------------------

/-- Nodes do not lie in the blocks of the callers. -/
theorem Good.only_kept (h : Good s held t) (ho : Only as m m')
    (ha : ∀ a ∈ as, a + nodeSize ≤ kheapStart ∨ (⟨a - headerSize, nodeSize⟩ ∈ s.nodes)) :
    Kept held m m' := by
  intro b hb i hi
  refine ho _ fun a has => ?_
  obtain ⟨hlow, -⟩ := h.block_in hb
  rcases ha a has with hout | hn
  · simp only [Block.ptr]
    omega
  · have hd := (List.pairwise_append.mp (List.map_append ▸ h.tiling.disjoint)).2.2 b.span
      (List.mem_map_of_mem hb) _ (List.mem_map_of_mem hn)
    have hin := h.tiling.liveIn _ (List.mem_map_of_mem (List.mem_append_right held hn))
    simp only [Block.span, Span.Disjoint, Span.Within, Span.stop, Block.ptr, headerSize, nodeSize,
      kheapStart] at *
    omega

theorem Good.tree_kept (h : Good s held t) (ho : Only (addrs t) m m') : Kept held m m' :=
  h.only_kept ho h.homes

theorem Good.header_kept (h : Good s (b :: held) t)
    (hs : s = s₁.storeHeader b.header size) : Kept held s₁.mem s.mem := by
  intro d hd i hi
  have hne := (List.pairwise_cons.mp (List.map_cons ▸ h.tiling.disjoint)).1 d.span
    (List.mem_map_of_mem (List.mem_append_left _ hd))
  rw [hs]
  refine storeHeader_outside (s₁.view t) ?_
  simp only [Block.span, Span.Disjoint, Span.stop, Block.ptr] at *
  omega

theorem Good.alloc_kept (h : Good s held t) (hw : NoWrap pageAlign size)
    (hins : pageAlign = true → insert = fun s node base size => avlInsert base size fuel s node)
    (hm : heapAllocWith insert pageAlign size s = some (p, s')) :
    Kept held s.mem s'.mem ∧ s'.nodes = s.nodes := by
  cases hf : Avl.findBestFit (wanted pageAlign size) t with
  | none =>
    rw [h.alloc_none hw hf] at hm
    cases hm
    exact ⟨.refl _ _, rfl⟩
  | some best =>
    obtain ⟨placed, t', rfl, hplace, -, -, hgood, hnodes⟩ := h.alloc hw hins hf hm
    refine ⟨?_, hnodes⟩
    rcases h.stored.heapAllocWith insert h.root h.ordered hf hins with ⟨hx, -⟩ |
      ⟨placed', t'', m', hx, hplace', -, -, ho⟩
    · rw [hm] at hx
      cases hx
    · obtain rfl : placed = placed' := Option.some.inj (hplace.symm.trans hplace')
      rw [hm] at hx
      have hs' := (Prod.mk.inj (Option.some.inj hx)).2
      exact (h.tree_kept ho).trans (hgood.header_kept hs')

theorem Good.createNode_kept (h : Good s held t) (base size : Nat) (h₁ : Good s₁ held t')
    (hp : (⟨p - headerSize, nodeSize⟩ : Block) ∈ s₁.nodes)
    (hc : createNode base size s = some (s₁, p)) : Kept held s.mem s₁.mem := by
  obtain ⟨⟨q, s₂⟩, hk, hc⟩ := Option.bind_eq_some_iff.mp hc
  obtain ⟨hs₁, rfl⟩ := Prod.mk.inj (Option.some.inj hc)
  obtain ⟨hkept, -⟩ := h.alloc_kept (by decide : NoWrap false nodeSize) nofun hk
  have hmem : s₁.mem = initNode s₂.mem q base size := by rw [← hs₁]
  rw [hmem]
  exact hkept.trans (h₁.only_kept (initNode_only _ _ _ _) (by simpa using .inr hp))

theorem Good.mergeNeighbors_kept (h : Good s held t) (hb : b ∈ held ++ s.nodes) {base z : Nat}
    (hm : KHeap.mergeNeighbors b.header (b.size + headerSize) s = some (base, z, s')) :
    Kept held s.mem s'.mem ∧ s'.nodes = s.nodes := by
  have hbs : (⟨b.header, b.size + headerSize⟩ : Span) ∈ (held ++ s.nodes).map Block.span :=
    List.mem_map_of_mem hb
  have hend : kheapEnd < wordSize := by decide
  have hpos : 0 < b.size + headerSize := by simp [headerSize]
  obtain ⟨hl, hr⟩ := findNeighbors_spec none none
    (apart_of_live h.tiling hend hbs hpos) (by simp) (by simp)
  have hn := h.stored.findNeighbors b.header (b.size + headerSize) none none
    h.stored.length_lt_fuel (by simp) (by simp)
  generalize Vm.findNeighbors b.header (b.size + headerSize) t none none = N at hl hr hn
  obtain ⟨left, right⟩ := N
  dsimp only at hl hr hn
  simp only [reduceCtorEq, false_or] at hl hr
  obtain ⟨b₁, z₁, m₁, t₁, hx₁, -, ht₁, ho₁, hsub, hkept⟩ := h.stored.mergeLeft b.header
    (b.size + headerSize) left h.root h.ordered fun c hc => ((hl c).mp hc).1
  obtain ⟨z₂, m₂, t₂, hx₂, -, -, ho₂⟩ := Stored.mergeRight z₁ right
    (s := { s with mem := m₁, root := ptr t₁ }) ht₁ rfl fun c hc => by
      obtain ⟨hmem, hre⟩ := (hr c).mp hc
      refine ⟨h.stored.addr_ne_zero hmem, hkept c hmem fun l hl' => ?_⟩
      have := ((hl l).mp hl').2
      omega
  rw [KHeap.mergeNeighbors, h.root, show (0 : Nat) = addrOf none from rfl, hn] at hm
  simp only [Option.bind_eq_bind, Option.bind_some, hx₁, hx₂] at hm
  obtain ⟨-, -, rfl⟩ : b₁ = base ∧ z₂ = z ∧ _ = s' := by simpa using hm
  exact ⟨h.tree_kept (ho₁.trans (ho₂.mono hsub)), rfl⟩

theorem Ready.insert_kept {leaf t₂ : Avl.AvlNode} {f : Cell → Cell}
    (hr : Ready M.base M.size s s₂ leaf f t) (hpos : 0 < M.size) (h₂ : Good s₂ held t₂)
    (ha : ∀ t', Avl.insertLeaf leaf M.base (t.map f) = some t' → ∀ a ∈ addrs t',
      a + nodeSize ≤ kheapStart ∨ (⟨a - headerSize, nodeSize⟩ ∈ s₂.nodes))
    (hi : KHeap.avlInsert M.base M.size fuel s (ptr t) = some (s₁, p)) :
    Kept held s₂.mem s₁.mem ∧ s₁.nodes = s₂.nodes := by
  rcases hr.avlInsert (Nat.pos_iff_ne_zero.mp hpos) hr.before.length_lt_fuel with ⟨hx, -⟩ |
    ⟨m', t', hx, hy, -, ho⟩
  · rw [hi] at hx
    cases hx
  · rw [hi] at hx
    cases hx
    exact ⟨h₂.only_kept ho (ha t' hy), rfl⟩

theorem Good.insert_none_kept (h : Good s held t) (hgap : Gap M t) (hpos : 0 < M.size)
    (hf : Avl.findBestFit nodeBlock t = none)
    (hi : avlInsert M.base M.size fuel s s.root = some (s₁, p)) :
    Kept held s.mem s₁.mem ∧ s₁.nodes = s.nodes := by
  obtain ⟨s₂, hnew, h₂, hnodes⟩ := h.createNode_none M.base M.size hf
  have hready : Ready M.base M.size s s₂ .nil id t :=
    ⟨h.stored, by rw [BinaryTree.id_map]; exact h₂.stored, by simp, by simp, Stored.nil _,
      by rw [BinaryTree.id_map]; simpa using h₂.stored.store, fun _ => hnew,
      fun hm => absurd (missing_of_absent fun c hc => hgap.absent hc) hm⟩
  have hnull : Kept held s.mem s₂.mem := by
    obtain ⟨⟨q, s₃⟩, hk, hc⟩ := Option.bind_eq_some_iff.mp hnew
    obtain ⟨hs₂, hq⟩ := Prod.mk.inj (Option.some.inj hc)
    obtain ⟨h₃, -⟩ := h.alloc_kept (by decide : NoWrap false nodeSize) nofun hk
    rw [← hs₂, hq]
    exact h₃.trans (h.only_kept (initNode_only _ _ _ _) (by simp [nodeSize, kheapStart]))
  have hhomes : ∀ t', Avl.insertLeaf .nil M.base (t.map id) = some t' → ∀ a ∈ addrs t',
      a + nodeSize ≤ kheapStart ∨ (⟨a - headerSize, nodeSize⟩ ∈ s₂.nodes) := by
    intro t' hy a ha
    rw [BinaryTree.id_map] at hy
    exact h₂.homes a ((Avl.insertLeaf_nil hy).2.1 ▸ ha)
  rw [h.root] at hi
  obtain ⟨hkept, hsame⟩ := hready.insert_kept hpos h₂ hhomes hi
  exact ⟨hnull.trans hkept, hsame.trans hnodes⟩

theorem Good.insert_some_kept (h : Good s held t) (hgap : Gap M t) (hpos : 0 < M.size)
    (hin : M.Within kheapStart kheapEnd) (hf : Avl.findBestFit nodeBlock t = some best)
    (hne : best.size ≠ nodeBlock) (hi : avlInsert M.base M.size fuel s s.root = some (s₁, p)) :
    Kept held s.mem s₁.mem ∧ s₁.nodes = ⟨best.base, nodeSize⟩ :: s.nodes := by
  obtain ⟨hc, hsize⟩ := Avl.findBestFit_mem hf
  have hbest := hgap best.span (Avl.mem_spans_of_mem hc)
  have hend : kheapEnd < wordSize := by decide
  simp only [Span.Within, Span.stop, Avl.Cell.span, wordSize] at hin hbest hend
  obtain ⟨s₂, hnew, h₂, hleaf, hclear, hnodes⟩ := h.createNode_some M.base M.size hf hne (by omega)
    (by omega)
  have hstore : Store ((best.base + headerSize) :: addrs (Vm.setBlock best.addr
      (best.base + nodeBlock) (best.size - nodeBlock) t)) :=
    h₂.stored.store.cons (hleaf.store.low _ (by simp [Avl.createNode]))
      (hleaf.store.high _ (by simp [Avl.createNode])) (by rw [setBlock_addrs]; exact hclear)
  have hready : Ready M.base M.size s s₂ (Avl.createNode (best.base + headerSize) M.base M.size)
      (fun c => if c.addr = best.addr then
        { c with base := best.base + nodeBlock, size := best.size - nodeBlock } else c) t := by
    refine ⟨h.stored, h₂.stored, fun c hc' => ?_, fun c => ?_, hleaf, hstore, fun _ => hnew,
      fun hm => absurd (missing_of_absent fun c hc => hgap.absent hc) hm⟩
    · split
      · rename_i ha
        obtain rfl := List.inj_on_of_nodup_map h.stored.store.nodup hc' hc ha
        simp only [nodeBlock] at *
        omega
      · exact ⟨Iff.rfl, Iff.rfl⟩
    · split <;> rfl
  have hnode : (⟨best.base + headerSize - headerSize, nodeSize⟩ : Block) ∈ s₂.nodes := by
    rw [hnodes, Nat.add_sub_cancel]
    exact List.mem_cons_self
  have hhomes : ∀ t', Avl.insertLeaf (Avl.createNode (best.base + headerSize) M.base M.size) M.base
      (Vm.setBlock best.addr (best.base + nodeBlock) (best.size - nodeBlock) t) = some t' →
      ∀ a ∈ addrs t', a + nodeSize ≤ kheapStart ∨ (⟨a - headerSize, nodeSize⟩ ∈ s₂.nodes) := by
    intro t' hy a ha
    rw [Avl.insertLeaf_createNode] at hy
    rcases Avl.insert_go_addrs hy with heq | hp
    · exact h₂.homes a (heq ▸ ha)
    · rcases List.mem_cons.mp (hp.mem_iff.mp ha) with rfl | ha
      · exact .inr hnode
      · exact h₂.homes a ha
  rw [h.root] at hi
  obtain ⟨hkept, hsame⟩ := hready.insert_kept hpos h₂ hhomes hi
  exact ⟨(h.createNode_kept _ _ h₂ hnode hnew).trans hkept, hsame.trans hnodes⟩

/-- `kfree` keeps the blocks of all others, and takes storage for a node if there is some. -/
theorem Good.kfree_kept {message : Option Message} (h : Good s held t) (hb : b ∈ held)
    (hspare : Spares b s) (hk : KHeap.kfree b.ptr s = some (message, s')) :
    Kept held s.mem s'.mem ∧ message = none ∧
      (Roomy b s → ∃ a, s'.nodes = ⟨a, nodeSize⟩ :: s.nodes) := by
  have hb' : b ∈ held ++ s.nodes := List.mem_append_left _ hb
  have hbs := List.mem_map_of_mem (f := Block.span) hb'
  have hbpos : 0 < b.span.size := by simp [Block.span, headerSize]
  obtain ⟨L, R, m₂, t₂, hmerge, htouch, h₂, hspans⟩ := h.mergeNeighbors hb'
  obtain ⟨hkept, hnodes⟩ := h.mergeNeighbors_kept hb' hmerge
  rw [h.kfree_eq hb', hmerge, Option.bind_some] at hk
  obtain ⟨⟨s₁, p⟩, hi, hs'⟩ := Option.bind_eq_some_iff.mp hk
  obtain ⟨rfl, rfl⟩ := Prod.mk.inj (Option.some.inj hs')
  have hgap : Gap (Tiling.merged L b.span R) t₂ := fun x hx => by
    obtain ⟨hx, hl, hr⟩ := (hspans x).mp hx
    exact Tiling.Touching.gap h.tiling hbs hbpos htouch hx hl hr
  have hpos := Tiling.merged_pos L R hbpos
  have hfit : nodeFit b s = some ({ s with mem := m₂, root := ptr t₂ },
      addrOf (Avl.findBestFit nodeBlock t₂)) := by
    rw [nodeFit, hmerge, wanted_node]
    simp only [Option.bind_eq_bind, Option.bind_some]
    rw [h₂.stored.findBestFit _ h₂.stored.length_lt_fuel]
    rfl
  cases hf : Avl.findBestFit nodeBlock t₂ with
  | none =>
    obtain ⟨hk₁, -⟩ := h₂.insert_none_kept hgap hpos hf hi
    refine ⟨hkept.trans hk₁, rfl, fun hroomy => absurd ?_ (hroomy _ hfit)⟩
    rw [hf]
    rfl
  | some best =>
    have hne : best.size ≠ nodeBlock := by
      have hc := (Avl.findBestFit_mem hf).1
      rw [hf] at hfit
      have := (hspare _ hfit).resolve_left (h₂.stored.addr_ne_zero hc)
      rwa [← (h₂.stored.rep.cell hc).2]
    obtain ⟨hk₁, hn₁⟩ := h₂.insert_some_kept hgap hpos (htouch.within h.tiling hbs) hf hne hi
    exact ⟨hkept.trans hk₁, rfl, fun _ => ⟨best.base, hn₁⟩⟩

end

-- ---------------------------------------------------------------------------
-- Runs
-- ---------------------------------------------------------------------------

/-- A block as a memory of its own. -/
def BlockMemory.step (b : Block) (bytes : Nat → BitVec 8) : Call → Nat → BitVec 8
  | .store addr value => fun i => if b.ptr + i = addr then value else bytes i
  | _ => bytes

def Call.frees : Call → Bool
  | .kfree _ => true
  | _ => false

def Call.freed : Call → Option Block
  | .kfree b => some b
  | _ => none

section
variable {s s' : RunState} {t : Avl.AvlNode} {b : Block} {c : Call} {boot : Boot}

theorem take_mem {p size : Nat} {heap : KState} (hb : b ∈ s.held) : b ∈ (s.take size (p, heap)).held := by
  rw [RunState.take]
  split
  · exact hb
  · exact List.mem_cons_of_mem _ hb

theorem Good.step_kept (h : Good s.heap s.held t) (hc : c.Careful s) (hb : b ∈ s.held)
    (hne : c ≠ .kfree b) (hs : c.step s = some s') : b ∈ s'.held ∧
      ∀ i < b.size, s'.heap.mem (b.ptr + i) =
        BlockMemory.step b (fun i => s.heap.mem (b.ptr + i)) c i := by
  obtain ⟨hlegal, hspare⟩ := hc
  cases c with
  | kmalloc size =>
    obtain ⟨⟨p, heap⟩, hm, rfl⟩ := Option.map_eq_some_iff.mp hs
    exact ⟨take_mem hb, (h.alloc_kept hlegal nofun hm).1 b hb⟩
  | ikmalloc size pageAlign =>
    obtain ⟨⟨p, heap⟩, hm, rfl⟩ := Option.map_eq_some_iff.mp hs
    exact ⟨take_mem hb, (h.alloc_kept hlegal (fun _ => rfl) hm).1 b hb⟩
  | kfree d =>
    obtain ⟨⟨message, heap⟩, hm, rfl⟩ := Option.map_eq_some_iff.mp hs
    have hbd : b ≠ d := fun he => hne (he ▸ rfl)
    exact ⟨(List.mem_erase_of_ne hbd).mpr hb, (h.kfree_kept hlegal (hspare d rfl) hm).1 b hb⟩
  | store addr value =>
    obtain rfl := Option.some.inj hs
    exact ⟨hb, fun i hi => rfl⟩

/-- Until it is given back, what is in a block of the kernel heap is what its callers have
stored there: no call of the heap and no store to another block changes it. -/
theorem block_refines_memory {cs : List Call} (hr : Reach Call.Careful Call.step boot.init s)
    (hb : b ∈ s.held)
    (hcs : Calls (fun s c => c.Careful s ∧ c ≠ .kfree b) Call.step s cs s') :
    b ∈ s'.held ∧ ∀ i < b.size, s'.heap.mem (b.ptr + i) =
      cs.foldl (BlockMemory.step b) (fun i => s.heap.mem (b.ptr + i)) i := by
  have hstep : ∀ s c s' (bytes : Nat → BitVec 8),
      ((∃ t, Good s.heap s.held t) ∧ b ∈ s.held ∧ ∀ i < b.size, s.heap.mem (b.ptr + i) = bytes i) →
      c.Careful s ∧ c ≠ .kfree b → c.step s = some s' →
      (∃ t, Good s'.heap s'.held t) ∧ b ∈ s'.held ∧
        ∀ i < b.size, s'.heap.mem (b.ptr + i) = BlockMemory.step b bytes c i := by
    rintro s c s' bytes ⟨⟨t, h⟩, hb, hbytes⟩ ⟨hc, hne⟩ hs
    obtain ⟨hb', hkept⟩ := h.step_kept hc hb hne hs
    refine ⟨h.step hc hs, hb', fun i hi => (hkept i hi).trans ?_⟩
    cases c with
    | store addr value =>
      simp only [BlockMemory.step]
      split
      · rfl
      · exact hbytes i hi
    | kmalloc size => exact hbytes i hi
    | ikmalloc size pageAlign => exact hbytes i hi
    | kfree d => exact hbytes i hi
  exact (hcs.simulates _ ⟨good_of_reach hr, hb, fun _ _ => rfl⟩ hstep).2

deriving instance DecidableEq for Call

/-- A byte that stays while another block goes and comes. -/
theorem block_refines_memory_others : ∃ s s' : RunState, s.held = [⟨0xC0000018, 28⟩, ⟨0xC0000000, 16⟩] ∧
    s'.held = [⟨0xC0000000, 8⟩, ⟨0xC0000018, 28⟩] ∧ s'.heap.mem 0xC0000021 = 0x37 := by
  obtain ⟨s, hr, hheld, hrun⟩ := Reach.exists_of_exec Call.Careful Call.step KHeap.boot.init
    (fun s : RunState => s.held = [⟨0xC0000018, 28⟩, ⟨0xC0000000, 16⟩] ∧
      (exec (fun (s : RunState) (c : Call) => c.Careful s ∧ c ≠ .kfree ⟨0xC0000018, 28⟩) Call.step s
        [.store 0xC0000021 0x37, .kfree ⟨0xC0000000, 16⟩, .kmalloc 8]).any
          fun s : RunState => s.held = [⟨0xC0000000, 8⟩, ⟨0xC0000018, 28⟩])
    [.kmalloc 16, .kmalloc 28] (by decide +kernel)
  obtain ⟨s', hs', hheld'⟩ := (Option.any_eq_true _ _).mp hrun
  have hb : ⟨0xC0000018, 28⟩ ∈ s.held := by
    rw [hheld]
    decide
  obtain ⟨-, hbytes⟩ := block_refines_memory hr hb (Calls.of_exec _ hs')
  exact ⟨s, s', hheld, of_decide_eq_true hheld', hbytes 1 (by decide)⟩

/-- `kfree` gets storage for the node that it makes. -/
def Call.Returns (s : RunState) (c : Call) : Prop :=
  c.Careful s ∧ ∀ b, c = .kfree b → Roomy b s.heap

theorem Call.freed_eq_some : c.freed = some b ↔ c = .kfree b := by
  cases c with
  | kfree b' =>
    exact ⟨fun h => congrArg Call.kfree (Option.some.inj h),
      fun h => congrArg some (Call.kfree.inj h)⟩
  | kmalloc size => exact ⟨nofun, nofun⟩
  | ikmalloc size pageAlign => exact ⟨nofun, nofun⟩
  | store addr value => exact ⟨nofun, nofun⟩

theorem Call.returns_iff : c.Returns s ↔ c.Careful s ∧ ∀ b ∈ c.freed, Roomy b s.heap :=
  and_congr_right fun _ => forall_congr' fun _ => imp_congr_left freed_eq_some.symm

instance : Decidable (Call.Returns s c) := decidable_of_iff _ Call.returns_iff.symm

theorem Good.step_nodes (h : Good s.heap s.held t) (hc : c.Returns s) (hs : c.step s = some s') :
    s'.heap.nodes.map Block.size =
      List.replicate ([c].countP Call.frees) nodeSize ++ s.heap.nodes.map Block.size := by
  obtain ⟨⟨hlegal, hspare⟩, hroomy⟩ := hc
  cases c with
  | kmalloc size =>
    obtain ⟨⟨p, heap⟩, hm, rfl⟩ := Option.map_eq_some_iff.mp hs
    exact congrArg (List.map Block.size) (h.alloc_kept hlegal nofun hm).2
  | ikmalloc size pageAlign =>
    obtain ⟨⟨p, heap⟩, hm, rfl⟩ := Option.map_eq_some_iff.mp hs
    exact congrArg (List.map Block.size) (h.alloc_kept hlegal (fun _ => rfl) hm).2
  | kfree b =>
    obtain ⟨⟨message, heap⟩, hm, rfl⟩ := Option.map_eq_some_iff.mp hs
    obtain ⟨a, hnodes⟩ := (h.kfree_kept hlegal (hspare b rfl) hm).2.2 (hroomy b rfl)
    exact congrArg (List.map Block.size) hnodes
  | store addr value =>
    obtain rfl := Option.some.inj hs
    rfl

theorem Boot.init_nodes (b : Boot) : b.init.heap.nodes = [] := by
  rw [Boot.init, kheapInit, heapInit]
  dsimp only
  split
  · rfl
  · rfl

/-- Every `kfree` costs the area a node with its header for good: what the callers hold
and these nodes fit into it together. So it can serve 37449 calls of `kfree` at most. -/
theorem heap_wears_out {cs : List Call} (hcs : Calls Call.Returns Call.step boot.init cs s) :
    s.heap.nodes.length = cs.countP Call.frees ∧
      (s.held.map fun b => b.size + headerSize).sum + nodeBlock * cs.countP Call.frees ≤
        kheapInitialSize := by
  have hrun : (∃ t, Good s.heap s.held t) ∧
      s.heap.nodes.map Block.size = List.replicate (cs.countP Call.frees) nodeSize := by
    induction hcs with
    | nil => exact ⟨⟨_, boot.init_good⟩, by rw [boot.init_nodes]; rfl⟩
    | snoc _ hc hs ih =>
      obtain ⟨⟨t, h⟩, hn⟩ := ih
      refine ⟨h.step hc.1 hs, ?_⟩
      rw [h.step_nodes hc hs, hn, ← List.replicate_add, List.countP_append, Nat.add_comm]
  obtain ⟨⟨t, h⟩, hn⟩ := hrun
  have hlen := congrArg List.length hn
  rw [List.length_map, List.length_replicate] at hlen
  have hnodes : (s.heap.nodes.map fun b => b.size + headerSize) =
      List.replicate (cs.countP Call.frees) nodeBlock := by
    rw [show (fun b : Block => b.size + headerSize) = (· + headerSize) ∘ Block.size from rfl,
      ← List.map_map, hn, List.map_replicate]
    rfl
  have hsum : (((s.held ++ s.heap.nodes).map Block.span).map Span.size).sum =
      (s.held.map fun b => b.size + headerSize).sum + nodeBlock * cs.countP Call.frees := by
    rw [List.map_map, List.map_append, List.sum_append,
      show Span.size ∘ Block.span = fun b => b.size + headerSize from rfl, hnodes,
      List.sum_replicate_nat, Nat.mul_comm]
  refine ⟨hlen, ?_⟩
  rw [← hsum]
  exact sum_size_le h.tiling.disjoint h.tiling.liveIn

/-- Two blocks are held, and two nodes are gone. -/
theorem heap_wears_out_twice : ∃ s : RunState, s.held.length = 2 ∧ s.heap.nodes.length = 2 := by
  obtain ⟨s, hcs, hheld⟩ := Calls.exists_of_exec Call.Returns Call.step KHeap.boot.init
    (fun s => s.held.length = 2)
    [.kmalloc 16, .kmalloc 28, .kmalloc 8, .kmalloc 8, .kfree ⟨0xC0000000, 16⟩,
      .kfree ⟨0xC000003C, 8⟩] (by decide +kernel)
  exact ⟨s, hheld, (heap_wears_out hcs).1⟩

end

end Shigure.Vm.KHeap
