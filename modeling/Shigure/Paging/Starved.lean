import Shigure.Paging.CloneTotal

/-!
# Running out of the kernel heap

That nothing is left is what address 0 says when `heap_alloc` returns it, and
address 0 is mapped and writable for the kernel. `get_page` looks at what it was
given. `clone_page_table`, `clone_page_directory` and `create_node` do not: they
fill the object at `NULL`.

A call that writes through `NULL` may find there by chance what it writes. So the
rest of the machine is held fixed and the bytes at `NULL` are arbitrary.
-/

namespace Shigure.Paging

open Vm (Block headerSize pageSize wanted alignHeader)
open Vm.KHeap (KState Stored ptr nodeSize load)
open Avl (spans)

-- ---------------------------------------------------------------------------
-- The calls
-- ---------------------------------------------------------------------------

inductive HeapUse
  | getPage (vaddr pd : Nat)
  | clonePageTable (src : Nat)
  | clonePageDirectory (src : Nat)
  | avlInsert (root base size : Nat)

def HeapUse.run : HeapUse → VmState → Option (Bool × VmState)
  | .getPage vaddr pd, s => do
    let (page, s) ← Paging.getPage vaddr pd true s
    some (page == .null, s)
  | .clonePageTable src, s => do
    let (dst, _, s) ← Paging.clonePageTable src s
    some (dst == 0, s)
  | .clonePageDirectory src, s => do
    let (dst, s) ← Paging.clonePageDirectory src s
    some (dst == 0, s)
  | .avlInsert root base size, s => do
    let kheap ← s.kheap
    let (kheap, root) ← Vm.KHeap.avlInsert base size Vm.KHeap.fuel kheap root
    some (root == 0, { s with kheap := some kheap })

/-- The call looks at the address that `ikmalloc` gives it. -/
def HeapUse.Looks : HeapUse → Prop
  | .getPage _ _ => True
  | _ => False

-- ---------------------------------------------------------------------------
-- Nothing is left
-- ---------------------------------------------------------------------------

def growthSize (pageAlign : Bool) (size endAddr : Nat) : Nat :=
  add32 (add32 (sub32 (if pageAlign then alignHeader endAddr else endAddr) endAddr) headerSize) size

/-- No free block is large enough and the heap may not grow. -/
structure NoRoom (size : Nat) (pageAlign : Bool) (k : KState) (t : Avl.AvlNode) : Prop where
  root : k.root = ptr t
  stored : Stored k.mem t
  noFit : Avl.findBestFit (wanted pageAlign size) t = none
  limit : add32 k.startAddr k.maxSize <
    align (add32 k.endAddr (growthSize pageAlign size k.endAddr)) pageSize

def OutOfHeap (size : Nat) (pageAlign : Bool) (s : VmState) : Prop :=
  ∃ k t, s.kheap = some k ∧ NoRoom size pageAlign k t

def leafReached (base : Nat) (m : Mem) : Nat → Nat → Bool
  | 0, _ => false
  | fuel + 1, node =>
    if node = 0 then true
    else if base < (load m node).base then leafReached base m fuel (load m node).left
    else if base > (load m node).base then leafReached base m fuel (load m node).right
    else false

def newDirectory (dst : Nat) (paddr : BitVec 32) (s : VmState) : VmState :=
  { s.setDirectory dst ⟨fun _ => 0, fun _ => 0, paddr⟩ with directories := dst :: s.directories }

/-- The directory is there, and there is nothing left for the clone of table `i`. -/
structure TableStarved (src : Nat) (s : VmState) (dst : Nat) (is : List Nat) (i : Nat)
    (s₁ : VmState) : Prop where
  before : ∃ paddr s₀, ikmalloc pageDirectorySize true s = some (dst, paddr, s₀) ∧
    clonePdes src dst is (newDirectory dst paddr s₀) = some s₁
  notNull : dst ≠ 0
  next : is ++ [i] <+: List.range pdEntries
  table : (s₁.pageDirectories src).tables i ≠ 0
  own : (s₁.pageDirectories src).tables i ≠ (s₁.pageDirectories s₁.kernelPd).tables i
  outOfHeap : OutOfHeap pageTableSize true s₁

/-- The heap does not have what the call asks it for. -/
def Starved : HeapUse → VmState → Prop
  | .getPage vaddr pd, s =>
    (s.pageDirectories pd).tables (pdIndex vaddr) = 0 ∧ OutOfHeap pageTableSize true s
  | .clonePageTable _, s => OutOfHeap pageTableSize true s
  | .clonePageDirectory src, s =>
    OutOfHeap pageDirectorySize true s ∨ ∃ dst is i s₁, TableStarved src s dst is i s₁
  | .avlInsert root base size, s =>
    size ≠ 0 ∧ OutOfHeap nodeSize false s ∧
      ∀ k, s.kheap = some k → leafReached base k.mem Vm.KHeap.fuel root = true

-- ---------------------------------------------------------------------------
-- Reported, not written through
-- ---------------------------------------------------------------------------

def handedOut (s : VmState) : List Block := s.held ++ s.kheap.elim [] KState.nodes

def HandedOutSince (s s' : VmState) (a : Nat) : Prop :=
  ∃ b ∈ handedOut s', b ∉ handedOut s ∧ b.ptr ≤ a ∧ a < b.ptr + b.size

structure Unchanged (s s' : VmState) : Prop where
  tables : ∀ t, ¬ HandedOutSince s s' t → s'.pageTables t = s.pageTables t
  directories : ∀ pd, ¬ HandedOutSince s s' pd → s'.pageDirectories pd = s.pageDirectories pd
  memory : ∀ k, s.kheap = some k →
    ∃ k', s'.kheap = some k' ∧ ∀ a, ¬ HandedOutSince s s' a → k'.mem a = k.mem a
  frames : s'.frames = s.frames
  phys : s'.phys = s.phys
  blocks : ∀ k t, s.kheap = some k → k.root = ptr t → Stored k.mem t →
    ∃ k' t', s'.kheap = some k' ∧ k'.root = ptr t' ∧ Stored k'.mem t' ∧
      ∀ b, b ∈ spans t' ↔ b ∈ spans t

def Reported (c : HeapUse) (s : VmState) : Prop := ∃ s', c.run s = some (true, s') ∧ Unchanged s s'

/-- The machine with other bytes at `NULL`, as a page table, a page directory and a tree node
there have them. -/
def VmState.atNull (s : VmState) (nul : Mem) : VmState :=
  let table i := BitVec.ofNat 32 (nul.read32 (4 * i))
  let directory : PageDirectory :=
    ⟨table, fun i => nul.read32 (4 * (pdEntries + i)), table (2 * pdEntries)⟩
  { s with
    pageTables := fun t => if t = 0 then table else s.pageTables t
    pageDirectories := fun pd => if pd = 0 then directory else s.pageDirectories pd
    kheap := s.kheap.map fun k =>
      { k with mem := fun a => if a < nodeSize then nul a else k.mem a } }

section
variable {s s' s₁ : VmState} {k : KState} {t : Avl.AvlNode} {c : HeapUse} {nul : Mem} {pageAlign : Bool}
  {size base vaddr pd src dst root : Nat}

-- ---------------------------------------------------------------------------
-- The answer of the heap
-- ---------------------------------------------------------------------------

theorem NoRoom.heapAllocWith (h : NoRoom size pageAlign k t)
    (insert : KState → Nat → Nat → Nat → Option (KState × Nat)) :
    Vm.KHeap.heapAllocWith insert pageAlign size k = some (0, k) := by
  refine Vm.KHeap.heapAllocWith_none ?_ ?_
  · rw [h.root, h.stored.findBestFit _ h.stored.length_lt_fuel, h.noFit]
    rfl
  · have hrefused : Vm.expandHeap (growthSize pageAlign size k.endAddr) (k.view .nil) =
        (0, k.view .nil) := if_pos h.limit
    rw [growthSize] at hrefused
    rw [Vm.KHeap.expandHeap, hrefused]
    rfl

theorem OutOfHeap.ikmalloc (h : OutOfHeap size pageAlign s) :
    ikmalloc size pageAlign s = some (0, kernelPhys 0 s, s) := by
  obtain ⟨k, t, hk, hroom⟩ := h
  rw [ikmalloc_heap hk (hroom.heapAllocWith _), if_pos rfl, ← hk]

theorem OutOfHeap.atNull (h : OutOfHeap size pageAlign s) (nul : Mem) :
    OutOfHeap size pageAlign (s.atNull nul) := by
  obtain ⟨k, t, hk, hroom⟩ := h
  refine ⟨_, t, congrArg (Option.map _) hk, hroom.root, ?_, hroom.noFit, hroom.limit⟩
  refine hroom.stored.congr fun a ha x hlo hhi => if_neg ?_
  have hlow := hroom.stored.store.low a ha
  omega

-- ---------------------------------------------------------------------------
-- The one that looks
-- ---------------------------------------------------------------------------

theorem Unchanged.refl (s : VmState) : Unchanged s s :=
  ⟨fun _ _ => rfl, fun _ _ => rfl, fun k hk => ⟨k, hk, fun _ _ => rfl⟩, rfl, rfl,
    fun k t hk hroot hstored => ⟨k, t, hk, hroot, hstored, fun _ => Iff.rfl⟩⟩

theorem getPage_reported (h : Starved (.getPage vaddr pd) s) : Reported (.getPage vaddr pd) s := by
  obtain ⟨hmissing, hout⟩ := h
  refine ⟨s, ?_, .refl s⟩
  simp only [HeapUse.run, getPage, if_pos hmissing, hout.ikmalloc, Option.bind_eq_bind,
    Option.bind_some, ↓reduceIte, Bool.not_true, Bool.false_eq_true]
  rfl

-- ---------------------------------------------------------------------------
-- A table at `NULL`
-- ---------------------------------------------------------------------------

/-- No block begins at `NULL`: before it stands its header. -/
theorem null_not_handedOut : ¬ HandedOutSince s s' 0 := by
  rintro ⟨b, -, -, hlow, -⟩
  simp only [Block.ptr, headerSize] at hlow
  omega

/-- A flag that no page of this kernel has. -/
def pageGlobal : BitVec 32 := 0x100

theorem low_global : Low pageGlobal := by decide

theorem anyOf_cloneFlags_global (w v : BitVec 32) :
    anyOf (cloneFlags w v) pageGlobal = anyOf v pageGlobal := by
  have hother : anyOf pagePresent pageGlobal = false ∧ anyOf pageRw pageGlobal = false ∧
      anyOf pageUser pageGlobal = false ∧ anyOf pageAccessed pageGlobal = false ∧
      anyOf pageDirty pageGlobal = false := by decide
  simp [cloneFlags, anyOf_foldl, hother, -List.foldl_cons]

variable {p q : Slot} {i : Nat} {is : List Nat} {pte : BitVec 32}

theorem global_setEntry (h : anyOf (s.entry q) pageGlobal = false)
    (hpte : anyOf pte pageGlobal = false) :
    anyOf ((s.setEntry p pte).entry q) pageGlobal = false := by
  by_cases he : q = p
  · rw [he, entry_setEntry_self]
    exact hpte
  · rwa [entry_setEntry_ne he]

theorem global_allocFrame (h : anyOf (s.entry q) pageGlobal = false)
    (ha : allocFrame p false false s = some s') : anyOf (s'.entry q) pageGlobal = false := by
  rw [allocFrame] at ha
  split at ha
  · cases ha
    exact h
  · dsimp only at ha
    split at ha
    · cases ha
    · cases ha
      refine global_setEntry h ?_
      have hpresent : anyOf pagePresent pageGlobal = false := by decide
      have huser : anyOf pageUser pageGlobal = false := by decide
      simp only [Bool.not_false, ↓reduceIte, Bool.false_eq_true, anyOf_or,
        anyOf_shiftLeft _ low_global, hpresent, huser, Bool.or_false]

theorem global_cloneEntry (h : ∀ q : Slot, q.table = dst → anyOf (s.entry q) pageGlobal = false)
    (hc : cloneEntry src dst i s = some s') :
    ∀ q : Slot, q.table = dst → anyOf (s'.entry q) pageGlobal = false := by
  intro q hq
  rw [cloneEntry] at hc
  split at hc
  · cases hc
    exact global_setEntry (h q hq) (by decide)
  · obtain ⟨s₁, ha, hc⟩ := Option.bind_eq_some_iff.mp hc
    dsimp only at hc
    generalize copyPhysicalPage _ _ _ = phys at hc
    obtain rfl := Option.some.inj hc
    refine global_setEntry (global_allocFrame (h q hq) ha) ?_
    rw [anyOf_cloneFlags_global]
    exact global_allocFrame (h _ rfl) ha

theorem global_cloneEntries (h : ∀ q : Slot, q.table = dst → anyOf (s.entry q) pageGlobal = false)
    (hc : cloneEntries src dst is s = some s') :
    ∀ q : Slot, q.table = dst → anyOf (s'.entry q) pageGlobal = false := by
  induction is generalizing s with
  | nil =>
    obtain rfl := Option.some.inj hc
    exact h
  | cons i is ih =>
    obtain ⟨s₁, h1, hc⟩ := Option.bind_eq_some_iff.mp hc
    exact ih (global_cloneEntry h h1) hc

/-- Bytes of which no word has the low bits of a page table entry or of a node. -/
def ones : Mem := fun _ => 1

theorem atNull_table : anyOf ((s.atNull ones).entry .null) pageGlobal = true := by
  have hword : anyOf (BitVec.ofNat 32 (ones.read32 (4 * 0))) pageGlobal = true := by decide
  exact hword

theorem clonePageTable_written (h : OutOfHeap pageTableSize true s) (src : Nat) :
    ¬ Reported (.clonePageTable src) (s.atNull ones) := by
  rintro ⟨s', hrun, hsame⟩
  obtain ⟨⟨t, pa, s''⟩, hc, hrun⟩ := Option.bind_eq_some_iff.mp hrun
  obtain ⟨-, rfl⟩ := Prod.mk.inj (Option.some.inj hrun)
  obtain ⟨s₁, hi, he⟩ := clonePageTable_some hc
  rw [(h.atNull ones).ikmalloc] at hi
  cases hi
  have hclear := global_cloneEntries (fun q hq => ?_) he .null rfl
  · have htable := congrFun (hsame.tables 0 null_not_handedOut) 0
    rw [VmState.entry, Slot.null, htable] at hclear
    exact Bool.false_ne_true (hclear.symm.trans atNull_table)
  · have hzero : anyOf 0 pageGlobal = false := by decide
    simp only [VmState.entry, VmState.setTable, hq, ↓reduceIte]
    exact hzero

-- ---------------------------------------------------------------------------
-- A directory at `NULL`
-- ---------------------------------------------------------------------------

theorem setPde_paddrPde (j table : Nat) : ((s.setPde dst j table pte).pageDirectories pd).paddrPde =
    (s.pageDirectories pd).paddrPde := by
  by_cases he : pd = dst
  · simp only [VmState.setPde, VmState.setDirectory, he, ↓reduceIte]
  · simp only [VmState.setPde, VmState.setDirectory, he, ↓reduceIte]

theorem clonePde_paddrPde (h : clonePde src dst i s = some s') (pd : Nat) :
    (s'.pageDirectories pd).paddrPde = (s.pageDirectories pd).paddrPde := by
  rw [clonePde] at h
  split at h
  · obtain rfl := Option.some.inj h
    exact setPde_paddrPde _ _
  · split at h
    · obtain rfl := Option.some.inj h
      exact setPde_paddrPde _ _
    · obtain ⟨⟨t, pa, s₁⟩, ht, h⟩ := Option.bind_eq_some_iff.mp h
      obtain rfl := Option.some.inj h
      rw [setPde_paddrPde, (clonePageTable_same ht).1]

theorem clonePdes_paddrPde (h : clonePdes src dst is s = some s') (pd : Nat) :
    (s'.pageDirectories pd).paddrPde = (s.pageDirectories pd).paddrPde := by
  induction is generalizing s with
  | nil =>
    obtain rfl := Option.some.inj h
    rfl
  | cons i is ih =>
    obtain ⟨s₁, h1, h⟩ := Option.bind_eq_some_iff.mp h
    rw [ih h, clonePde_paddrPde h1]

theorem clonePageDirectory_written (h : OutOfHeap pageDirectorySize true s) (src : Nat) :
    ¬ Reported (.clonePageDirectory src) (s.atNull ones) := by
  rintro ⟨s', hrun, hsame⟩
  obtain ⟨⟨pd, s''⟩, hc, hrun⟩ := Option.bind_eq_some_iff.mp hrun
  obtain ⟨-, rfl⟩ := Prod.mk.inj (Option.some.inj hrun)
  obtain ⟨pa, s₁, hi, he⟩ := clonePageDirectory_some hc
  rw [(h.atNull ones).ikmalloc] at hi
  cases hi
  -- the physical address of `NULL` is that of a page
  have hnew := clonePdes_paddrPde he 0
  have hpage : kernelPhys 0 (s.atNull ones) &&& pageGlobal = 0 := by
    rw [kernelPhys_page (by decide)]
    exact shiftLeft_and _ low_global
  have hones : BitVec.ofNat 32 (ones.read32 (4 * (2 * pdEntries))) &&& pageGlobal ≠ 0 := by decide
  rw [hsame.directories 0 null_not_handedOut] at hnew
  have hold : ((s.atNull ones).pageDirectories 0).paddrPde =
      BitVec.ofNat 32 (ones.read32 (4 * (2 * pdEntries))) := rfl
  rw [hold] at hnew
  rw [hnew] at hones
  exact hones hpage

theorem TableStarved.not_reported (h : TableStarved src s dst is i s₁) :
    ¬ Reported (.clonePageDirectory src) s := by
  rintro ⟨s', hrun, -⟩
  obtain ⟨⟨pd, s''⟩, hc, hrun⟩ := Option.bind_eq_some_iff.mp hrun
  obtain ⟨pa, s₂, hi, -⟩ := clonePageDirectory_some hc
  obtain ⟨⟨paddr, s₀, hi', -⟩, hdst⟩ := And.intro h.before h.notNull
  obtain ⟨hnull, -⟩ := Prod.mk.inj (Option.some.inj hrun)
  rw [hi'] at hi
  cases hi
  exact hdst (beq_iff_eq.mp hnull)

-- ---------------------------------------------------------------------------
-- A node at `NULL`
-- ---------------------------------------------------------------------------

variable {m m' : Mem} {k' : KState} {node node' fuel : Nat}

theorem rotateRight_notNull (h : Vm.KHeap.rotateRight m node = some (m', node')) : node' ≠ 0 := by
  rw [Vm.KHeap.rotateRight] at h
  split at h
  · cases h
  · cases h
    assumption

theorem rotateLeft_notNull (h : Vm.KHeap.rotateLeft m node = some (m', node')) : node' ≠ 0 := by
  rw [Vm.KHeap.rotateLeft] at h
  split at h
  · cases h
  · cases h
    assumption

theorem rebalanceInsert_notNull (hnode : node ≠ 0)
    (h : Vm.KHeap.rebalanceInsert base m node = some (m', node')) : node' ≠ 0 := by
  simp only [Vm.KHeap.rebalanceInsert] at h
  split at h
  · split at h
    · cases h
    · split at h
      · exact rotateRight_notNull h
      · split at h
        · obtain ⟨_, -, h⟩ := Option.bind_eq_some_iff.mp h
          exact rotateRight_notNull h
        · cases h
          exact hnode
  · split at h
    · split at h
      · cases h
      · split at h
        · exact rotateLeft_notNull h
        · split at h
          · obtain ⟨_, -, h⟩ := Option.bind_eq_some_iff.mp h
            exact rotateLeft_notNull h
          · cases h
            exact hnode
    · cases h
      exact hnode

/-- An insertion into a tree that is not empty returns a root, whatever became of the node. -/
theorem avlInsert_notNull (hnode : node ≠ 0)
    (h : Vm.KHeap.avlInsert base size fuel k node = some (k', node')) : node' ≠ 0 := by
  cases fuel with
  | zero => cases h
  | succ fuel =>
    rw [Vm.KHeap.avlInsert] at h
    split at h
    · cases h
      exact hnode
    · split at h
      · obtain ⟨⟨k₁, l⟩, -, h⟩ := Option.bind_eq_some_iff.mp h
        obtain ⟨⟨m₁, n₁⟩, hr, h⟩ := Option.bind_eq_some_iff.mp h
        cases h
        exact rebalanceInsert_notNull hnode hr
      · split at h
        · obtain ⟨⟨k₁, r⟩, -, h⟩ := Option.bind_eq_some_iff.mp h
          obtain ⟨⟨m₁, n₁⟩, hr, h⟩ := Option.bind_eq_some_iff.mp h
          cases h
          exact rebalanceInsert_notNull hnode hr
        · cases h
          exact hnode

theorem avlInsert_root (hroot : root ≠ 0) : ¬ Reported (.avlInsert root base size) s := by
  rintro ⟨s', hrun, -⟩
  obtain ⟨k, -, hrun⟩ := Option.bind_eq_some_iff.mp hrun
  obtain ⟨⟨k', root'⟩, hx, hrun⟩ := Option.bind_eq_some_iff.mp hrun
  obtain ⟨hnull, -⟩ := Prod.mk.inj (Option.some.inj hrun)
  exact avlInsert_notNull hroot hx (beq_iff_eq.mp hnull)

/-- `node->left = NULL`, where `node` is `NULL`. -/
theorem initNode_left (m : Mem) (base size : Nat) : Vm.KHeap.initNode m 0 base size 12 = 0 := by
  rw [Vm.KHeap.initNode, Vm.KHeap.setLeft, Nat.zero_add, Mem.write32_byte0]
  rfl

theorem NoRoom.avlInsert (h : NoRoom nodeSize false k t) (hsize : size ≠ 0) (base : Nat) :
    Vm.KHeap.avlInsert base size Vm.KHeap.fuel k 0 =
      some ({ k with mem := Vm.KHeap.initNode k.mem 0 base size }, 0) := by
  obtain ⟨n, hn⟩ : ∃ n, Vm.KHeap.fuel = n + 1 := ⟨wordSize - 1, rfl⟩
  have hk : Vm.KHeap.kmalloc nodeSize k = some (0, k) := h.heapAllocWith _
  rw [hn, Vm.KHeap.avlInsert, if_neg hsize, if_pos rfl, Vm.KHeap.createNode, hk]
  rfl

theorem avlInsert_written (h : OutOfHeap nodeSize false s) (hsize : size ≠ 0) (base : Nat) :
    ¬ Reported (.avlInsert 0 base size) (s.atNull ones) := by
  rintro ⟨s', hrun, hsame⟩
  obtain ⟨k, t, hk, hroom⟩ := h.atNull ones
  have hinsert : HeapUse.run (.avlInsert 0 base size) (s.atNull ones) =
      some (true, { s.atNull ones with
        kheap := some { k with mem := Vm.KHeap.initNode k.mem 0 base size } }) := by
    simp only [HeapUse.run, hk, hroom.avlInsert hsize, Option.bind_eq_bind, Option.bind_some]
    rfl
  rw [hinsert] at hrun
  obtain ⟨-, rfl⟩ := Prod.mk.inj (Option.some.inj hrun)
  obtain ⟨k', hk', hmem⟩ := hsame.memory k hk
  cases hk'
  have hnew := hmem 12 ?_
  · have hold : k.mem 12 = 1 := by
      obtain ⟨k₀, -, rfl⟩ := Option.map_eq_some_iff.mp hk
      rfl
    exact absurd ((initNode_left k.mem base size).symm.trans (hnew.trans hold)) (by decide)
  · rintro ⟨b, hb, hnot, -⟩
    refine hnot ?_
    rw [handedOut, hk]
    exact hb

-- ---------------------------------------------------------------------------
-- All calls
-- ---------------------------------------------------------------------------

theorem atNull_atNull (s : VmState) (nul nul' : Mem) :
    (s.atNull nul).atNull nul' = s.atNull nul' := by
  have htables : ((s.atNull nul).atNull nul').pageTables = (s.atNull nul').pageTables := by
    funext t
    by_cases h : t = 0
    · simp only [VmState.atNull, if_pos h]
    · simp only [VmState.atNull, if_neg h]
  have hdirectories :
      ((s.atNull nul).atNull nul').pageDirectories = (s.atNull nul').pageDirectories := by
    funext pd
    by_cases h : pd = 0
    · simp only [VmState.atNull, if_pos h]
    · simp only [VmState.atNull, if_neg h]
  have hkheap : ((s.atNull nul).atNull nul').kheap = (s.atNull nul').kheap := by
    cases hk : s.kheap with
    | none => simp only [VmState.atNull, hk, Option.map_none]
    | some k =>
      simp only [VmState.atNull, hk, Option.map_some, Option.some.injEq, KState.mk.injEq, and_true]
      funext a
      by_cases h : a < nodeSize
      · simp only [if_pos h]
      · simp only [if_neg h]
  simp only [VmState.atNull] at htables hdirectories hkheap ⊢
  rw [htables, hdirectories, hkheap]

/-- Whatever is at `NULL`, a call for which there is nothing left says so and leaves the rest
alone: this holds of those that look at what they were given, and of no other. -/
theorem reported_iff (hs : Starved c (s.atNull nul)) :
    (∀ nul, Starved c (s.atNull nul) → Reported c (s.atNull nul)) ↔ c.Looks := by
  cases c with
  | getPage vaddr pd => exact iff_of_true (fun _ => getPage_reported) trivial
  | clonePageTable src =>
    refine iff_of_false (fun hall => ?_) id
    have hones := OutOfHeap.atNull hs ones
    have hwritten := clonePageTable_written hs src
    rw [atNull_atNull] at hones hwritten
    exact hwritten (hall ones hones)
  | clonePageDirectory src =>
    refine iff_of_false (fun hall => ?_) id
    rcases hs with hout | ⟨dst, is, i, s₁, hlate⟩
    · have hones := hout.atNull ones
      have hwritten := clonePageDirectory_written hout src
      rw [atNull_atNull] at hones hwritten
      exact hwritten (hall ones (.inl hones))
    · exact hlate.not_reported (hall nul (.inr ⟨dst, is, i, s₁, hlate⟩))
  | avlInsert root base size =>
    refine iff_of_false (fun hall => ?_) id
    by_cases hroot : root = 0
    · subst hroot
      obtain ⟨hsize, hout, -⟩ := hs
      have hones := hout.atNull ones
      have hwritten := avlInsert_written hout hsize base
      rw [atNull_atNull] at hones hwritten
      exact hwritten (hall ones ⟨hsize, hones, fun _ _ => rfl⟩)
    · exact avlInsert_root hroot (hall nul hs)

/-- All of `kheap` has been handed out. -/
def usedUp : VmState where
  placementAddress := 0x204000
  kheap := some ⟨fun _ => 0, 0, 0xC0000000, 0xC0100000, 0xCFFFF000, false, false, [], []⟩
  frames := ⟨fun _ => 0, 0, fun _ => ⟨0, 0⟩, []⟩
  pageTables _ _ := pageRw
  pageDirectories _ := ⟨fun _ => pageRw, fun i => if i = 0 then 0x203000 else 0, 0x200000⟩
  kernelPd := 0x200000
  currentPd := 0x200000
  phys _ := 0
  placed := []
  held := [⟨0xC0000000, 0xFFFF8⟩]
  made := [0x203000]
  directories := [0x200000]

theorem usedUp_outOfHeap : OutOfHeap pageTableSize true usedUp := by
  refine ⟨_, .nil, rfl, rfl, ?_, rfl, by decide⟩
  exact ⟨trivial, trivial, trivial, by simp, by simp, by simp, List.nodup_nil⟩

theorem getPage_reported_usedUp :
    Starved (.getPage 0x40000000 0x200000) (usedUp.atNull ones) ∧
      Reported (.getPage 0x40000000 0x200000) (usedUp.atNull ones) := by
  have hs : Starved (.getPage 0x40000000 0x200000) (usedUp.atNull ones) :=
    ⟨rfl, usedUp_outOfHeap.atNull ones⟩
  exact ⟨hs, (reported_iff hs).mpr trivial ones hs⟩

/-- There is nothing left for the clone of a table, and it is made at `NULL`. -/
theorem null_written : ¬ ∀ (c : HeapUse) (s : VmState), Starved c s → Reported c s := fun hall =>
  clonePageTable_written usedUp_outOfHeap 0x203000
    (hall (.clonePageTable 0x203000) _ (usedUp_outOfHeap.atNull ones))

end

end Shigure.Paging
