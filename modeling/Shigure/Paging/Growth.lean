import Shigure.Paging.Spaces

/-!
# Heaps that grow

`expand_heap` maps the new pages through the kernel's directory. A clone has the
tables that the kernel had when it was made: it follows the kernel as long as
the new pages are under tables that are there.
-/

namespace Shigure.Paging

open Pm (FrameState frameSize freeFrames)
open Vm (Heap HeapState PageRequest pageSize)
open Vm.KHeap (heapSize nodeSize)

/-- The node of `avl_insert(NULL, base, size)`; none is made for no bytes. -/
def firstNode (size : Nat) (s : VmState) : Option (Nat × VmState) :=
  if size = 0 then some (0, s) else (ikmalloc nodeSize false s).map fun r => (r.1, r.2.2)

/-- `heap_init` once there is a heap for the `heap_t` and the node. -/
def heapInit (startAddr endAddr maxSize : Nat) (supervisor readonly : Bool) (s : VmState) :
    Option (Option Heap × VmState) := do
  let (heap, _, s) ← ikmalloc heapSize false s
  if heap = 0 then some (none, s)
  else
    let (node, s) ← firstNode (sub32 (align endAddr pageSize) (align startAddr pageSize)) s
    let h ← Vm.heapInit node startAddr endAddr maxSize supervisor readonly (kernelMem s)
    some (some h.heap, s)

/-- `alloc_frame(get_page(vaddr, kernel_pd, true), kernel, writable)` for one page after
the other. -/
def servePages : List PageRequest → VmState → Option VmState
  | [], s => some s
  | r :: rs, s => do
    let (page, s) ← getPage r.vaddr s.kernelPd true s
    let s ← allocFrame page r.kernel r.writable s
    servePages rs s

def expansion (size : Nat) (heap : Heap) (s : VmState) : HeapState :=
  (Vm.expandHeap size ⟨heap, kernelMem s, []⟩).2

def expandHeap (size : Nat) (heap : Heap) (s : VmState) : Option (Heap × VmState) := do
  let h := expansion size heap s
  let s ← servePages h.pages s
  some (h.heap, s)

/-- The kernel with the heaps that it has made besides `kheap`. -/
structure Kernel where
  vm : VmState
  heaps : List Heap

inductive KernelCall
  | heapInit (startAddr endAddr maxSize : Nat) (supervisor readonly : Bool)
  | expandHeap (i size : Nat)
  | clonePageDirectory (src : Nat)

def KernelCall.step (k : Kernel) : KernelCall → Option Kernel
  | .heapInit startAddr endAddr maxSize supervisor readonly => do
    let (heap, vm) ← Paging.heapInit startAddr endAddr maxSize supervisor readonly k.vm
    some ⟨vm, k.heaps ++ heap.toList⟩
  | .expandHeap i size => do
    let heap ← k.heaps[i]?
    let (heap, vm) ← Paging.expandHeap size heap k.vm
    some ⟨vm, k.heaps.set i heap⟩
  | .clonePageDirectory src => do
    let (_, vm) ← Paging.clonePageDirectory src k.vm
    some { k with vm := vm }

/-- A clone of a directory that was made, or a page for a heap, in which every
allocation succeeds. -/
def KernelCall.Succeeds (k : Kernel) (c : KernelCall) : Prop :=
  (match c with
    | .clonePageDirectory src => src ∈ k.vm.directories
    | _ => True) ∧
  ∀ k', c.step k = some k' → 0 ∉ k'.vm.objects

/-- The kernel has a table for every page that the heap grows by. -/
def KernelCall.Covered (k : Kernel) (c : KernelCall) : Prop :=
  match c with
  | .expandHeap i size => ∀ heap, k.heaps[i]? = some heap → ∀ r ∈ (expansion size heap k.vm).pages,
      (k.vm.pageDirectories k.vm.kernelPd).tables (pdIndex r.vaddr) ≠ 0
  | _ => True

def Kernel.InHeap (k : Kernel) (v : Nat) : Prop :=
  (∃ kheap, k.vm.kheap = some kheap ∧ kheap.startAddr ≤ v ∧ v < kheap.endAddr) ∨
  ∃ heap ∈ k.heaps, heap.startAddr ≤ v ∧ v < heap.endAddr

/-- All directories translate the addresses of the heaps as the kernel's does. -/
def Kernel.SameHeaps (k : Kernel) : Prop :=
  ∀ v < wordSize, k.InHeap v → ∀ pd ∈ k.vm.directories,
    frameAt k.vm pd v = frameAt k.vm k.vm.kernelPd v

/-- Every directory has the tables of the kernel. -/
structure Shares (s : VmState) : Prop extends World s where
  shared : ∀ pd ∈ s.directories, ∀ i < pdEntries,
    (s.pageDirectories pd).tables i = (s.pageDirectories s.kernelPd).tables i ∧
    ((s.pageDirectories pd).tables i ≠ 0 →
      (s.pageDirectories pd).entries i = (s.pageDirectories s.kernelPd).entries i)

section
variable {s s' : VmState} {src pd v : Nat} {k k' : Kernel}

theorem Shares.frameAt (h : Shares s) (hpd : pd ∈ s.directories) (hv : v < wordSize) :
    frameAt s pd v = frameAt s s.kernelPd v := by
  have hi := pdIndex_lt hv
  obtain ⟨ht, he⟩ := h.shared pd hpd _ hi
  by_cases h0 : (s.pageDirectories pd).tables (pdIndex v) = 0
  · rw [frameAt_absent fun hp => (h.pdes pd hpd _ hi).present.mp hp h0,
      frameAt_absent fun hp => (h.pdes _ h.kernelDirectory _ hi).present.mp hp (ht ▸ h0)]
  · simp only [Paging.frameAt, ht, he h0]

-- ---------------------------------------------------------------------------
-- One call
-- ---------------------------------------------------------------------------

theorem Shares.kmalloc (h : Shares s) {size a : Nat} {pa : BitVec 32} (hw : Vm.KHeap.NoWrap false size)
    (hi : ikmalloc size false s = some (a, pa, s')) : Shares s' := by
  obtain ⟨⟨_, _, rfl⟩, hs, -, -⟩ := h.sound.ikmalloc_block hw hi
  exact ⟨h.toWorld.congr hs (h.owned.ikmalloc hi).1 rfl rfl rfl rfl, h.shared⟩

theorem Shares.heapInit (h : Shares s) {startAddr endAddr maxSize : Nat} {supervisor readonly : Bool}
    {heap : Option Heap}
    (hi : heapInit startAddr endAddr maxSize supervisor readonly s = some (heap, s')) : Shares s' := by
  rw [Paging.heapInit] at hi
  obtain ⟨⟨a, pa, s₁⟩, h1, hi⟩ := Option.bind_eq_some_iff.mp hi
  have hs1 := h.kmalloc (by decide) h1
  dsimp only at hi
  split at hi
  · cases hi
    exact hs1
  · obtain ⟨⟨node, s₂⟩, h2, hi⟩ := Option.bind_eq_some_iff.mp hi
    obtain ⟨_, -, hi⟩ := Option.bind_eq_some_iff.mp hi
    cases hi
    rw [firstNode] at h2
    split at h2
    · cases h2
      exact hs1
    · obtain ⟨⟨a', pa', s₃⟩, h3, h2⟩ := Option.map_eq_some_iff.mp h2
      cases h2
      exact hs1.kmalloc (by decide) h3

theorem Shares.allocFrame (h : Shares s) {p : Slot} {kernel writable : Bool}
    (ha : allocFrame p kernel writable s = some s') :
    Shares s' ∧ s'.kernelPd = s.kernelPd ∧ s'.pageDirectories = s.pageDirectories := by
  have hw := h.toWorld.allocFrame ha
  rcases allocFrame_cases h.owned.layout ha with ⟨-, rfl⟩ | ⟨-, f, frames, -, -, -, -, rfl⟩
  · exact ⟨h, rfl, rfl⟩
  · exact ⟨⟨hw, h.shared⟩, rfl, rfl⟩

theorem servePages_one {r : PageRequest} {q : Slot} {s₁ : VmState}
    (hg : getPage r.vaddr s.kernelPd true s = some (q, s₁))
    (ha : allocFrame q r.kernel r.writable s₁ = some s') : servePages [r] s = some s' := by
  simp only [servePages, hg, ha, Option.bind_eq_bind, Option.bind_some]

theorem Shares.servePages (h : Shares s) {rs : List PageRequest}
    (hcovered : ∀ r ∈ rs, (s.pageDirectories s.kernelPd).tables (pdIndex r.vaddr) ≠ 0)
    (hs : servePages rs s = some s') : Shares s' := by
  induction rs generalizing s with
  | nil =>
    cases hs
    exact h
  | cons r rs ih =>
    rw [Paging.servePages, getPage_old (hcovered r List.mem_cons_self), Option.bind_eq_bind,
      Option.bind_some] at hs
    obtain ⟨s₁, h1, hs⟩ := Option.bind_eq_some_iff.mp hs
    obtain ⟨hs1, hk, hd⟩ := h.allocFrame h1
    refine ih hs1 (fun r' hr => ?_) hs
    rw [hk, hd]
    exact hcovered r' (List.mem_cons_of_mem r hr)

theorem Shares.clone (h : Shares s) (hsrc : src ∈ s.directories)
    (hc : clonePageDirectory src s = some (pd, s')) (h0 : 0 ∉ s'.objects) : Shares s' := by
  have hd := clonePageDirectory_spec (h.source hsrc) hc h0
  refine ⟨h.toWorld.clone hsrc hc h0, ?_⟩
  rw [hd.directories, hd.kernelPd, hd.old h.kernelDirectory]
  intro d hin i hi
  rcases List.mem_cons.mp hin with rfl | hin
  · obtain ⟨ht, he⟩ := h.shared src hsrc i hi
    cases hd.pdes i hi with
    | absent hsrc' htable => exact ⟨htable.trans (hsrc'.symm.trans ht), fun hne => absurd htable hne⟩
    | linked hne hkernel htable hpde => exact ⟨htable.trans hkernel, fun _ => hpde.trans (he hne)⟩
    | copied _ hkernel => exact absurd ht hkernel
  · rw [hd.old hin]
    exact h.shared d hin i hi

-- ---------------------------------------------------------------------------
-- Runs
-- ---------------------------------------------------------------------------

theorem Boots.shares {n initrdEnd : Nat} {s₀ : VmState} (h : Boots n initrdEnd s₀ s) : Shares s := by
  obtain ⟨m, s₁, pd, s₂, hm, hc, rfl⟩ := h.cases
  have hdirs : s₁.directories = [s₁.kernelPd] := by
    rw [hm.state]
    exact hm.mapping.directories
  have hs1 : Shares s₁ := by
    refine ⟨hm.world, fun d hin i _ => ?_⟩
    rw [hdirs, List.mem_singleton] at hin
    rw [hin]
    exact ⟨rfl, fun _ => rfl⟩
  have hs2 := hs1.clone hs1.kernelDirectory hc h.nonzero
  exact ⟨hs2.toWorld.switch pd, hs2.shared⟩

theorem Shares.step {c : KernelCall} (h : Shares k.vm) (hc : c.Succeeds k) (hcov : c.Covered k)
    (hs : c.step k = some k') : Shares k'.vm := by
  have h0 := hc.2 k' hs
  cases c with
  | heapInit startAddr endAddr maxSize supervisor readonly =>
    obtain ⟨⟨heap, vm⟩, hi, hs⟩ := Option.bind_eq_some_iff.mp hs
    cases hs
    exact h.heapInit hi
  | expandHeap i size =>
    obtain ⟨heap, hheap, hs⟩ := Option.bind_eq_some_iff.mp hs
    obtain ⟨⟨heap', vm⟩, he, hs⟩ := Option.bind_eq_some_iff.mp hs
    cases hs
    obtain ⟨vm', hp, he⟩ := Option.bind_eq_some_iff.mp he
    cases he
    exact h.servePages (hcov heap hheap) hp
  | clonePageDirectory src =>
    obtain ⟨⟨pd, vm⟩, hd, hs⟩ := Option.bind_eq_some_iff.mp hs
    cases hs
    exact h.clone hc.1 hd h0

/-- All address spaces see the same heaps, in every run that makes no table for the
kernel. -/
theorem heaps_shared {n initrdEnd : Nat} {s₀ s₁ : VmState} (hb : Boots n initrdEnd s₀ s₁)
    (hr : Reach (fun k c => KernelCall.Succeeds k c ∧ KernelCall.Covered k c) KernelCall.step
      ⟨s₁, []⟩ k) : k.SameHeaps := by
  have h : Shares k.vm := hr.invariant (fun k => Shares k.vm) hb.shares
    fun _ _ _ h hc hs => h.step hc.1 hc.2 hs
  intro v hv _ pd hpd
  exact h.frameAt hpd hv

-- ---------------------------------------------------------------------------
-- A heap of two pages
-- ---------------------------------------------------------------------------

/-- The blocks for a clone, a heap, its node and a table. -/
theorem firstHeap_grows : ∃ k₁ k₂ k₃ k₄,
    Vm.KHeap.ikmalloc pageDirectorySize true firstHeap = some (0xC0001000, k₁) ∧
    Vm.KHeap.ikmalloc heapSize false k₁ = some (0xC000300C, k₂) ∧
    Vm.KHeap.ikmalloc nodeSize false k₂ = some (0xC0003028, k₃) ∧
    Vm.KHeap.ikmalloc pageTableSize true k₃ = some (0xC0004000, k₄) := by
  have hpt : Vm.KHeap.NoWrap true pageTableSize := by decide
  have hnode : Vm.KHeap.NoWrap false nodeSize := by decide
  obtain ⟨k₁, _, h1, hb⟩ := firstHeap_clone
  obtain ⟨k₂, _, h2, hb⟩ := hb.next (p := 0xC000300C) hnode (by decide) (by decide +kernel)
  obtain ⟨k₃, _, h3, hb⟩ := hb.next (p := 0xC0003028) hnode (by decide) (by decide +kernel)
  obtain ⟨k₄, _, h4, -⟩ := hb.next (p := 0xC0004000) hpt (by decide) (by decide +kernel)
  exact ⟨k₁, k₂, k₃, k₄, h1, h2, h3, h4⟩

def smallHeap (startAddr endAddr : Nat) : Heap :=
  ⟨Avl.createNode 0xC0003028 startAddr 0x1000, startAddr, endAddr, 0x10000, false, false⟩

theorem heapInit_of {startAddr endAddr maxSize a node : Nat} {supervisor readonly : Bool} {pa : BitVec 32}
    {s₁ s₂ : VmState} {h : HeapState} (h1 : ikmalloc heapSize false s = some (a, pa, s₁)) (ha : a ≠ 0)
    (h2 : firstNode (sub32 (align endAddr pageSize) (align startAddr pageSize)) s₁ = some (node, s₂))
    (h3 : Vm.heapInit node startAddr endAddr maxSize supervisor readonly (kernelMem s₂) = some h) :
    heapInit startAddr endAddr maxSize supervisor readonly s = some (some h.heap, s₂) := by
  rw [Paging.heapInit, h1, Option.bind_eq_bind, Option.bind_some]
  dsimp only
  rw [if_neg ha, h2, Option.bind_eq_bind, Option.bind_some]
  dsimp only
  rw [h3, Option.bind_eq_bind, Option.bind_some]

section
variable {k₁ k₂ k₃ k₄ : Vm.KHeap.KState} {startAddr : Nat}
variable (hstart : align startAddr pageSize = startAddr)
  (hend : align (startAddr + 0x1000) pageSize = startAddr + 0x1000)
  (hsize : sub32 (startAddr + 0x1000) startAddr = 0x1000)
include hstart hend hsize

theorem heapInit_small (hk : s.kheap = some k₁)
    (h2 : Vm.KHeap.ikmalloc heapSize false k₁ = some (0xC000300C, k₂))
    (h3 : Vm.KHeap.ikmalloc nodeSize false k₂ = some (0xC0003028, k₃)) :
    ∃ held, heapInit startAddr (startAddr + 0x1000) 0x10000 false false s =
      some (some (smallHeap startAddr (startAddr + 0x1000)),
        { s with kheap := some k₃, held := held }) := by
  have hnode : firstNode (sub32 (align (startAddr + 0x1000) pageSize) (align startAddr pageSize))
      { s with kheap := some k₂, held := ⟨0xC000300C - Vm.headerSize, heapSize⟩ :: s.held } =
      some (0xC0003028, { s with
        kheap := some k₃
        held := ⟨0xC0003028 - Vm.headerSize, nodeSize⟩ :: ⟨0xC000300C - Vm.headerSize, heapSize⟩ ::
          s.held }) := by
    rw [firstNode, hstart, hend, hsize, if_neg (by decide), ikmalloc_heap rfl h3]
    rfl
  have hinit : ∀ mem, Vm.heapInit 0xC0003028 startAddr (startAddr + 0x1000) 0x10000 false false mem =
      some ⟨smallHeap startAddr (startAddr + 0x1000), mem, []⟩ := by
    intro mem
    have hinsert : Avl.avlInsert 0xC0003028 startAddr 0x1000 .nil =
      some (Avl.createNode 0xC0003028 startAddr 0x1000) := rfl
    rw [Vm.heapInit]
    simp only [hstart, hend, hsize, hinsert, Option.bind_eq_bind, Option.bind_some, smallHeap]
  exact ⟨_, heapInit_of (ikmalloc_heap hk h2) (by decide) hnode (hinit _)⟩

end

theorem expansion_one {heap : Heap} {size newEndAddr : Nat} (s : VmState)
    (hend : align (add32 heap.endAddr size) pageSize = newEndAddr) (hlt : heap.endAddr < newEndAddr)
    (hmax : newEndAddr ≤ add32 heap.startAddr heap.maxSize)
    (hnext : add32 heap.endAddr pageSize = newEndAddr) :
    expansion size heap s = ⟨{ heap with endAddr := newEndAddr }, kernelMem s,
      [⟨heap.endAddr, heap.supervisor, !heap.readonly⟩]⟩ := by
  have hpages : ∀ fuel, Vm.mapPages heap newEndAddr (fuel + 2) heap.endAddr =
      [⟨heap.endAddr, heap.supervisor, !heap.readonly⟩] := by
    intro fuel
    rw [Vm.mapPages, if_pos hlt, hnext, Vm.mapPages, if_neg (Nat.lt_irrefl _)]
  have hfuel : wordSize / pageSize = 1048574 + 2 := by decide
  simp only [expansion, Vm.expandHeap, hend, if_neg (Nat.not_lt.mpr hmax), hfuel, hpages,
    List.nil_append]

theorem expandHeap_of {heap : Heap} {size : Nat} {h : HeapState} (hx : expansion size heap s = h)
    (hs : servePages h.pages s = some s') : expandHeap size heap s = some (h.heap, s') := by
  simp only [expandHeap, hx, hs, Option.bind_eq_bind, Option.bind_some]

theorem step_expandHeap {heap heap' : Heap} {size : Nat}
    (h : expandHeap size heap s = some (heap', s')) :
    KernelCall.step ⟨s, [heap]⟩ (.expandHeap 0 size) = some ⟨s', [heap']⟩ := by
  simp only [KernelCall.step, List.getElem?_cons_zero, Option.bind_eq_bind, Option.bind_some, h,
    List.set_cons_zero]

theorem allocFrame_total {p : Slot} {f : Nat} (hl : s.frames.Layout)
    (hf : IsLeast (freeFrames s.frames) f) (kernel writable : Bool) :
    ∃ s', allocFrame p kernel writable s = some s' ∧ s'.objects = s.objects := by
  by_cases h0 : pteToPfn (s.entry p) = 0
  · obtain ⟨frames, -, -, -, ha⟩ := allocFrame_new hl h0 hf kernel writable
    exact ⟨_, ha, rfl⟩
  · exact ⟨s, if_pos h0, rfl⟩

/-- The run that makes a heap of one page and lets it grow by another. -/
structure TwoPages (startAddr : Nat) (s₁ s₂ s₃ : VmState) : Prop where
  boots : Boots 0x8000 0x1F0000 unbooted s₁
  heapInit : KernelCall.step ⟨s₁, []⟩ (.heapInit startAddr (startAddr + 0x1000) 0x10000 false false) =
    some ⟨s₂, [smallHeap startAddr (startAddr + 0x1000)]⟩
  nonzero₂ : 0 ∉ s₂.objects
  pages : (expansion 0x1000 (smallHeap startAddr (startAddr + 0x1000)) s₂).pages =
    [⟨startAddr + 0x1000, false, true⟩]
  expandHeap : KernelCall.step ⟨s₂, [smallHeap startAddr (startAddr + 0x1000)]⟩ (.expandHeap 0 0x1000) =
    some ⟨s₃, [smallHeap startAddr (startAddr + 0x2000)]⟩
  nonzero₃ : 0 ∉ s₃.objects

section
variable {startAddr : Nat} {s₁ s₂ s₃ : VmState} (h : TwoPages startAddr s₁ s₂ s₃)
include h

theorem TwoPages.succeeds₁ :
    KernelCall.Succeeds ⟨s₁, []⟩ (.heapInit startAddr (startAddr + 0x1000) 0x10000 false false) :=
  ⟨trivial, fun _ hs => Option.some.inj (h.heapInit.symm.trans hs) ▸ h.nonzero₂⟩

theorem TwoPages.succeeds₂ : KernelCall.Succeeds ⟨s₂, [smallHeap startAddr (startAddr + 0x1000)]⟩
    (.expandHeap 0 0x1000) :=
  ⟨trivial, fun _ hs => Option.some.inj (h.expandHeap.symm.trans hs) ▸ h.nonzero₃⟩

theorem TwoPages.covered
    (ht : (s₂.pageDirectories s₂.kernelPd).tables (pdIndex (startAddr + 0x1000)) ≠ 0) :
    KernelCall.Covered ⟨s₂, [smallHeap startAddr (startAddr + 0x1000)]⟩ (.expandHeap 0 0x1000) := by
  intro heap hheap r hr
  obtain rfl := Option.some.inj hheap
  rw [h.pages, List.mem_singleton] at hr
  rw [hr]
  exact ht

end

/-- The run needs a page for the heap, and nothing else. -/
theorem twoPages {k₁ k₂ k₃ : Vm.KHeap.KState} {first p startAddr : Nat} {s₁ : VmState}
    (hb : SmallBoot k₁ first p s₁)
    (h2 : Vm.KHeap.ikmalloc heapSize false k₁ = some (0xC000300C, k₂))
    (h3 : Vm.KHeap.ikmalloc nodeSize false k₂ = some (0xC0003028, k₃))
    (hal : pageSize ∣ startAddr) (hlt : startAddr + 0x20000 < wordSize) :
    ∃ held, Shares { s₁ with kheap := some k₃, held := held } ∧
      ∀ s₃, servePages [⟨startAddr + 0x1000, false, true⟩]
        { s₁ with kheap := some k₃, held := held } = some s₃ → 0 ∉ s₃.objects →
      TwoPages startAddr s₁ { s₁ with kheap := some k₃, held := held } s₃ := by
  have halign : ∀ a, pageSize ∣ a → a + 0x1000 < wordSize → align a pageSize = a := by
    intro a ha hlt
    rw [Vm.align_page a (by simp only [pageSize]; omega)]
    simp only [pageSize] at ha ⊢
    omega
  have hadd : ∀ a, a + 0x1000 < wordSize → add32 a 0x1000 = a + 0x1000 := fun a ha => add32_eq ha
  have h1 : align (startAddr + 0x1000) pageSize = startAddr + 0x1000 := by
    refine halign _ ?_ (by omega)
    simp only [pageSize] at hal ⊢
    omega
  have h2' : align (startAddr + 0x2000) pageSize = startAddr + 0x2000 := by
    refine halign _ ?_ (by omega)
    simp only [pageSize] at hal ⊢
    omega
  have hnext : add32 (startAddr + 0x1000) 0x1000 = startAddr + 0x2000 := hadd _ (by omega)
  have hmax : add32 startAddr 0x10000 = startAddr + 0x10000 := add32_eq (by omega)
  obtain ⟨held, hinit⟩ := heapInit_small (halign _ hal (by omega)) h1
    (by rw [sub32_eq (by omega) (by omega)]; omega) hb.kheap h2 h3
  have hgrow : align (add32 (startAddr + 0x1000) 0x1000) pageSize = startAddr + 0x2000 := by
    rw [hnext, h2']
  have hexpand : expansion 0x1000 (smallHeap startAddr (startAddr + 0x1000))
      { s₁ with kheap := some k₃, held := held } = ⟨smallHeap startAddr (startAddr + 0x2000),
        kernelMem { s₁ with kheap := some k₃, held := held }, [⟨startAddr + 0x1000, false, true⟩]⟩ := by
    refine expansion_one _ hgrow ?_ ?_ hnext
    · simp only [smallHeap]
      omega
    · simp only [smallHeap, hmax]
      omega
  refine ⟨held, hb.boots.shares.heapInit hinit,
    fun s₃ hs h0 => ⟨hb.boots, ?_, hb.boots.nonzero, by rw [hexpand], ?_, h0⟩⟩
  · rw [KernelCall.step, hinit]
    rfl
  · exact step_expandHeap (expandHeap_of hexpand hs)

/-- The heap is under the table of `kheap`, which all directories have. -/
theorem heaps_shared_two_pages : ∃ s₁ k, Boots 0x8000 0x1F0000 unbooted s₁ ∧
    Reach (fun k c => KernelCall.Succeeds k c ∧ KernelCall.Covered k c) KernelCall.step ⟨s₁, []⟩ k ∧
    k.heaps = [smallHeap 0xC0100000 0xC0102000] ∧ k.SameHeaps := by
  obtain ⟨k₁, k₂, k₃, k₄, h1, h2, h3, h4⟩ := firstHeap_grows
  obtain ⟨first, p, s₁, hb⟩ := smallBoot h1
  obtain ⟨held, -, hrun⟩ := twoPages hb h2 h3 (show pageSize ∣ 0xC0100000 by decide) (by decide)
  obtain ⟨s₂, hs₂⟩ : ∃ s₂, s₂ = { s₁ with kheap := some k₃, held := held } := ⟨_, rfl⟩
  rw [← hs₂] at hrun
  have hpage : (s₂.pageDirectories s₂.kernelPd).tables (pdIndex 0xC0101000) ≠ 0 := by
    rw [hs₂]
    exact hb.heapTable
  obtain ⟨s₃, hs₃, hobjects⟩ := allocFrame_total
    (p := ⟨(s₂.pageDirectories s₂.kernelPd).tables (pdIndex 0xC0101000), ptIndex 0xC0101000⟩)
    (show s₂.frames.Layout by rw [hs₂]; exact hb.layout) (by rw [hs₂]; exact hb.least) false true
  have hserve : servePages [⟨0xC0101000, false, true⟩] s₂ = some s₃ :=
    servePages_one (getPage_old hpage) hs₃
  have h := hrun s₃ hserve (by rw [hobjects, hs₂]; exact hb.boots.nonzero)
  have hreach : Reach (fun k c => KernelCall.Succeeds k c ∧ KernelCall.Covered k c) KernelCall.step
      ⟨s₁, []⟩ ⟨s₃, [smallHeap 0xC0100000 0xC0102000]⟩ :=
    .tail (.tail .refl ⟨h.succeeds₁, trivial⟩ h.heapInit) ⟨h.succeeds₂, h.covered hpage⟩ h.expandHeap
  exact ⟨s₁, _, hb.boots, hreach, rfl, heaps_shared hb.boots hreach⟩

/-- The heap needs a new table, which the directory that the kernel runs on does not
have. -/
theorem heaps_not_shared : ¬ ∀ (n initrdEnd : Nat) (s₀ s₁ : VmState) (k : Kernel),
    Boots n initrdEnd s₀ s₁ → Reach KernelCall.Succeeds KernelCall.step ⟨s₁, []⟩ k →
    k.SameHeaps := by
  intro hall
  obtain ⟨k₁, k₂, k₃, k₄, h1, h2, h3, h4⟩ := firstHeap_grows
  obtain ⟨first, p, s₁, hb⟩ := smallBoot h1
  have hfew := hb.few
  obtain ⟨held, hshares, hrun⟩ := twoPages hb h2 h3 (show pageSize ∣ 0xD0000000 by decide) (by decide)
  obtain ⟨s₂, hs₂⟩ : ∃ s₂, s₂ = { s₁ with kheap := some k₃, held := held } := ⟨_, rfl⟩
  rw [← hs₂] at hrun hshares
  have habsent : ∀ d ∈ s₂.directories, (s₂.pageDirectories d).tables (pdIndex 0xD0001000) = 0 := by
    rw [hs₂]
    exact fun d hd => hb.absent hd (by decide) (by decide) (by decide)
  obtain ⟨x, s₃, hp⟩ := page_made (show s₂.kheap = some k₃ by rw [hs₂]) h4 (by decide)
    (habsent _ hshares.kernelDirectory) (by rw [hs₂]; exact hb.layout) (by rw [hs₂]; exact hb.least)
    false true
  have hserve : servePages [⟨0xD0001000, false, true⟩] s₂ = some s₃ :=
    servePages_one hp.getPage hp.allocFrame
  have h := hrun s₃ hserve (hp.nonzero (by decide) (by rw [hs₂]; exact hb.boots.nonzero))
  have hreach := Reach.tail (.tail .refl h.succeeds₁ h.heapInit) h.succeeds₂ h.expandHeap
  have hcurrent : s₁.currentPd ∈ s₃.directories := by
    rw [hp.directories, hs₂]
    exact hb.current
  have hsame := hall 0x8000 0x1F0000 unbooted s₁ _ hb.boots hreach 0xD0001000 (by decide)
    (.inr ⟨_, List.mem_singleton_self _, by decide, by decide⟩) s₁.currentPd hcurrent
  have hne : s₁.currentPd ≠ s₂.kernelPd := by
    rw [hs₂]
    exact (hb.kernel_ne (by rw [hb.currentPd]; decide)).symm
  have hnone : frameAt s₃ s₁.currentPd 0xD0001000 = none := by
    refine frameAt_absent fun hpresent => ?_
    have htable := ((hp.world hshares.toWorld).pdes _ hcurrent _ (by decide)).present.mp hpresent
    rw [hp.table, if_neg fun h => hne h.1] at htable
    exact htable (habsent _ (hp.directories ▸ hcurrent))
  have hsome : frameAt s₃ s₃.kernelPd 0xD0001000 = some (p + 256) := by
    rw [hp.kernelPd]
    exact hp.frameAt (by omega)
  exact absurd (hnone.symm.trans (hsame.trans hsome)) (by simp)

end

end Shigure.Paging
