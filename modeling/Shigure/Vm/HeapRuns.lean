import Shigure.Lib.Reach
import Shigure.Vm.HeapLaws

/-!
# Runs of a heap whose tree nodes live elsewhere

Any sequence of `imalloc`, `ifree` of what is live, and stores of the callers
into the blocks they hold, from the state of `heap_init`. The blocks stay apart
from each other and from what is free, and their headers intact. What does not
hold is that nothing of the area gets lost: the fragment before an aligned
block is inserted under a base that is still in the tree, and what an expansion
does not use is never inserted.
-/

namespace Shigure.Vm

open Avl

/-- The heap with the blocks its callers hold, and the alignment fragments that
were left before them. -/
structure RunState where
  hs : HeapState
  live : List Block
  fragments : List Span

/-- The address that `create_node` would get is part of the call. -/
inductive HeapCall
  | imalloc (node size : Nat) (pageAlign : Bool)
  | ifree (node : Nat) (b : Block)
  | store (addr : Nat) (value : BitVec 8)

/-- What `heap_alloc` skips for the alignment. -/
def fragment (pageAlign : Bool) (size : Nat) (s : HeapState) : Span :=
  let front := ((findBestFit (wanted pageAlign size) s.heap.root).map Cell.base).getD s.heap.endAddr
  if pageAlign then ⟨front, sub32 (alignHeader front) front⟩ else ⟨front, 0⟩

def HeapCall.step (s : RunState) : HeapCall → Option RunState
  | .imalloc node size pageAlign => do
    let (p, hs) ← Vm.imalloc node size pageAlign s.hs
    some (if p = 0 then { s with hs := hs }
      else ⟨hs, ⟨p - headerSize, size⟩ :: s.live, fragment pageAlign size s.hs :: s.fragments⟩)
  | .ifree node b => do
    let (_, hs) ← Vm.ifree node b.ptr s.hs
    some { s with hs := hs, live := s.live.erase b }
  | .store addr value => some { s with hs := { s.hs with mem := s.hs.mem.set addr value } }

def HeapCall.Legal (s : RunState) : HeapCall → Prop
  | .imalloc node size pageAlign => NoWrap pageAlign size s.hs ∧ node ∉ addrs s.hs.heap.root
  | .ifree node b => b ∈ s.live ∧ node ∉ addrs s.hs.heap.root
  | .store addr _ => ∃ b ∈ s.live, b.ptr ≤ addr ∧ addr < b.ptr + b.size

instance : Decidable (HeapCall.Legal s c) := by
  cases c <;> unfold HeapCall.Legal <;> infer_instance

/-- What `heap_init` is called with: an area that does not reach the end of
the address space. -/
structure Area where
  node : Nat
  startAddr : Nat
  endAddr : Nat
  maxSize : Nat
  supervisor : Bool
  readonly : Bool
  mem : Mem
  le : startAddr ≤ endAddr
  noWrap : endAddr + (pageSize - 1) < wordSize

def Area.init (a : Area) : Option RunState := do
  let hs ← heapInit a.node a.startAddr a.endAddr a.maxSize a.supervisor a.readonly a.mem
  some ⟨hs, [], []⟩

-- ---------------------------------------------------------------------------
-- Headers
-- ---------------------------------------------------------------------------

def HeaderAt (mem : Mem) (b : Block) : Prop :=
  mem.read32 b.header = heapMagic ∧ mem.read32 (b.header + 4) = b.size

section
variable {s₀ s s' : RunState} {hs hs' : HeapState} {mem mem' : Mem} {b : Block} {c : HeapCall}
  {live : List Block} {best : Cell} {placed : Placed} {message : Option Message}
  {node size p addr : Nat} {pageAlign : Bool} {value : BitVec 8}

theorem HeaderAt.congr (h : HeaderAt mem b)
    (hm : ∀ x, b.header ≤ x → x < b.header + headerSize → mem' x = mem x) : HeaderAt mem' b := by
  simp only [headerSize] at hm
  refine ⟨?_, ?_⟩
  · rw [Mem.read32_congr fun x h1 h2 => hm x h1 (by omega)]
    exact h.1
  · rw [Mem.read32_congr fun x h1 h2 => hm x (by omega) (by omega)]
    exact h.2

theorem storeHeader_headerAt (hsize : b.size < wordSize) :
    HeaderAt (hs.storeHeader b.header b.size).mem b := by
  refine ⟨?_, Mem.read32_write32 _ _ hsize⟩
  rw [HeapState.storeHeader, Mem.read32_write32_apart _ (by omega)]
  exact Mem.read32_write32 _ _ (by decide)

theorem storeHeader_outside (hs : HeapState) (hx : x < addr ∨ addr + headerSize ≤ x) :
    (hs.storeHeader addr size).mem x = hs.mem x := by
  simp only [headerSize] at hx
  simp only [HeapState.storeHeader]
  rw [Mem.write32_outside _ (by omega), Mem.write32_outside _ (by omega)]

theorem HeaderAt.storeHeader (h : HeaderAt hs.mem b)
    (hd : Span.Disjoint ⟨addr, size + headerSize⟩ b.span) :
    HeaderAt (hs.storeHeader addr size).mem b := by
  refine h.congr fun x h1 h2 => storeHeader_outside _ ?_
  simp only [Span.Disjoint, Span.stop, Block.span, headerSize] at *
  omega

-- ---------------------------------------------------------------------------
-- The invariant
-- ---------------------------------------------------------------------------

structure Good (hs : HeapState) (live : List Block) : Prop where
  low : hs.heap.startAddr ≤ hs.heap.endAddr
  high : hs.heap.endAddr < wordSize
  tiling : Tiling hs.heap.startAddr hs.heap.endAddr (spans hs.heap.root) (live.map Block.span)
  nodup : (addrs hs.heap.root).Nodup
  headers : ∀ b ∈ live, HeaderAt hs.mem b

theorem Good.withMem (h : Good hs live)
    (hm : ∀ b ∈ live, ∀ x, b.header ≤ x → x < b.header + headerSize → mem x = hs.mem x) :
    Good { hs with mem := mem } live :=
  ⟨h.low, h.high, h.tiling, h.nodup, fun b hb => (h.headers b hb).congr (hm b hb)⟩

theorem Good.perm {live' : List Block} (h : Good hs live) (hp : live.Perm live') : Good hs live' :=
  ⟨h.low, h.high, h.tiling.perm (hp.map _), h.nodup, fun b hb => h.headers b (hp.mem_iff.mpr hb)⟩

theorem Area.init_spec {a : Area} (h : a.init = some s) : Good s.hs s.live ∧
    Covered s.hs.heap.startAddr s.hs.heap.endAddr (spans s.hs.heap.root)
      (s.live.map Block.span) [] := by
  have hle := a.le
  have hw := a.noWrap
  simp only [Area.init, heapInit, bind, Option.bind_eq_some_iff, Option.some.injEq] at h
  obtain ⟨hs, ⟨root, hr, rfl⟩, rfl⟩ := h
  have hstart := align_page a.startAddr (by omega)
  have hend := align_page a.endAddr hw
  generalize align a.startAddr pageSize = lo at *
  generalize align a.endAddr pageSize = hi at *
  simp only [pageSize, wordSize] at hw
  have hlohi : lo ≤ hi := by omega
  have hword : hi < wordSize := by simp only [wordSize]; omega
  rw [sub32_eq hlohi hword, avlInsert] at hr
  split at hr <;> obtain rfl := Option.some.inj hr
  · refine ⟨⟨hlohi, hword, Tiling.start, List.nodup_nil, by simp⟩, fun x h1 h2 => ?_⟩
    simp only at h1 h2
    omega
  · have hlt : lo < hi := by omega
    refine ⟨⟨hlohi, hword, Tiling.startFull hlt, by simp [createNode], by simp⟩,
      fun x h1 h2 => .inr (.inl ⟨⟨lo, hi - lo⟩, by simp [createNode, Cell.span], ?_⟩)⟩
    simp only at h1 h2
    rw [Span.mem_iff]
    dsimp only
    omega

/-- What `imalloc` promises of the block it returns. -/
structure Safe (live : List Block) (hs' : HeapState) (pageAlign : Bool) (b : Block) : Prop where
  inside : b.span.Within hs'.heap.startAddr hs'.heap.endAddr
  disjoint : ∀ b' ∈ live, b.span.Disjoint b'.span
  apart : ∀ f ∈ spans hs'.heap.root, b.span.Disjoint f
  aligned : pageAlign = true → pageSize ∣ b.ptr
  headers : ∀ b' ∈ live, HeaderAt hs'.mem b'

theorem Good.safe (h : Good hs' (b :: live)) (ha : pageAlign = true → pageSize ∣ b.ptr) :
    Safe live hs' pageAlign b where
  inside := h.tiling.liveIn _ (by simp)
  disjoint b' hb' := (List.pairwise_cons.mp h.tiling.disjoint).1 _ (List.mem_map_of_mem hb')
  apart f hf := h.tiling.apart _ (by simp) f hf
  aligned := ha
  headers b' hb' := h.headers b' (List.mem_cons_of_mem b hb')

theorem headers_cons (h : ∀ b' ∈ live, HeaderAt hs.mem b')
    (hd : ∀ b' ∈ live, b.span.Disjoint b'.span) (hsize : b.size < wordSize)
    (hm : mem = (hs.storeHeader b.header b.size).mem) : ∀ b' ∈ b :: live, HeaderAt mem b' := by
  rintro b' hb'
  rw [hm]
  rcases List.mem_cons.mp hb' with rfl | hb'
  · exact storeHeader_headerAt hsize
  · exact (h b' hb').storeHeader (hd b' hb')

theorem Good.extended (h : Good hs live) (hx : Extended pageAlign size hs hs' a) :
    Good hs' (⟨a, size⟩ :: live) := by
  have hstop := hx.stop
  have hwithin : (Block.span ⟨a, size⟩).Within hs.heap.endAddr hs'.heap.endAddr :=
    ⟨hx.front, by simp only [Span.stop, Block.span]; omega⟩
  have ht := h.tiling.grow h.low hwithin
  have hd := (List.pairwise_cons.mp ht.disjoint).1
  have hfront := hx.front
  have hlow := h.low
  have hhigh := hx.high
  refine ⟨by rw [hx.startAddr]; omega, hhigh, ?_, by rw [hx.root]; exact h.nodup,
    headers_cons h.headers (fun b' hb' => hd _ (List.mem_map_of_mem hb')) ?_ hx.mem⟩
  · rw [hx.startAddr, hx.root]
    exact ht
  · dsimp only
    omega

theorem Good.cut (h : Good hs live) (hx : Cut pageAlign size hs hs' best placed) :
    Good hs' (⟨placed.allocAddr, size⟩ :: live) := by
  have hbase := hx.fits.base
  have hstop := hx.fits.stop
  have hfront := hx.fits.front
  have hmem := mem_spans_of_mem (findBestFit_mem hx.found).1
  have hin := h.tiling.freeIn _ hmem
  have hhigh := h.high
  simp only [Span.Within, Span.stop, Cell.span] at hin
  have ht := h.tiling.cut (if placed.size = 0 then none else some ⟨placed.base, placed.size⟩)
    hmem (b := Block.span ⟨placed.allocAddr, size⟩)
    (by simp only [Span.Within, Span.stop, Block.span, Cell.span]; omega)
    (fun r hr => by
      split at hr
      · cases hr
      · obtain rfl := Option.some.inj hr
        simp only [Span.Within, Span.stop, Span.Disjoint, Block.span, Cell.span]
        omega)
    hx.ordered (fun x hxs => by
      rcases (hx.spans x).mp hxs with hxs | ⟨hz, rfl⟩
      · exact .inl hxs
      · exact .inr (if_neg hz))
  have hd := (List.pairwise_cons.mp ht.disjoint).1
  refine ⟨by rw [hx.startAddr, hx.endAddr]; exact h.low, by rw [hx.endAddr]; exact h.high, ?_,
    hx.addrs.nodup h.nodup,
    headers_cons h.headers (fun b' hb' => hd _ (List.mem_map_of_mem hb')) ?_ hx.mem⟩
  · rw [hx.startAddr, hx.endAddr]
    exact ht
  · dsimp only
    omega

theorem Good.imalloc (h : Good hs live) (hw : NoWrap pageAlign size hs)
    (hm : Vm.imalloc node size pageAlign hs = some (p, hs')) :
    (p = 0 ∧ hs' = hs) ∨
      ∃ a, p = a + headerSize ∧ (pageAlign = true → pageSize ∣ p) ∧
        Good hs' (⟨a, size⟩ :: live) := by
  rcases heapAlloc_cases h.tiling h.nodup h.low h.high hw hm with hx | ⟨a, hp, hx⟩ |
    ⟨best, placed, hp, hx⟩
  · exact .inl hx
  · exact .inr ⟨a, hp, fun ha => hp ▸ hx.aligned ha, h.extended hx⟩
  · exact .inr ⟨placed.allocAddr, hp, fun ha => hp ▸ hx.fits.aligned ha, h.cut hx⟩

/-- `ifree` of a live block finds its header and comes to `heap_free`. -/
theorem Good.ifree_eq (h : Good hs live) (hb : b ∈ live) :
    Vm.ifree node b.ptr hs = heapFree node b.header (b.size + headerSize) hs := by
  have hbs : b.span ∈ live.map Block.span := List.mem_map_of_mem hb
  have hin := h.tiling.liveIn _ hbs
  have hhigh := h.high
  simp only [Span.Within, Span.stop, Block.span] at hin
  obtain ⟨hmagic, hsize⟩ := h.headers b hb
  have hptr : sub32 b.ptr headerSize = b.header := by
    simp only [Block.ptr, headerSize] at *
    rw [sub32_eq (by omega) (by omega), Nat.add_sub_cancel]
  rw [Vm.ifree, if_neg (by simp [Block.ptr, headerSize])]
  simp only [hptr, hmagic, hsize, ne_eq, not_true_eq_false, ↓reduceIte]
  rw [add32_eq (by omega)]

theorem Good.ifree_spans (h : Good hs live) (hb : b ∈ live)
    (hf : Vm.ifree node b.ptr hs = some (message, hs')) :
    ∃ root L R, hs' = hs.setRoot root ∧ Tiling.Touching (spans hs.heap.root) b.span L R ∧
      ∀ x, x ∈ spans root ↔ x = Tiling.merged L b.span R ∨
        (x ∈ spans hs.heap.root ∧ L ≠ some x ∧ R ≠ some x) := by
  rw [h.ifree_eq hb] at hf
  obtain ⟨-, root, L, R, rfl, htouch, -, hs, -⟩ :=
    heapFree_spec h.tiling h.high (List.mem_map_of_mem (f := Block.span) hb) (by simp [headerSize]) hf
  exact ⟨root, L, R, rfl, htouch, hs⟩

theorem Good.ifree (h : Good hs live) (hb : b ∈ live) (hnode : node ∉ addrs hs.heap.root)
    (hf : Vm.ifree node b.ptr hs = some (message, hs')) :
    message = none ∧ Good hs' (live.erase b) := by
  have hbs : b.span ∈ live.map Block.span := List.mem_map_of_mem hb
  rw [h.ifree_eq hb] at hf
  obtain ⟨rfl, root, L, R, rfl, htouch, ho, hs, hn⟩ :=
    heapFree_spec h.tiling h.high hbs (by simp [headerSize]) hf
  refine ⟨rfl, h.low, h.high, ?_, hn h.nodup hnode,
    fun b' hb' => h.headers b' (List.mem_of_mem_erase hb')⟩
  rw [List.map_erase Block.span_injective]
  exact h.tiling.release hbs (by simp [Block.span, headerSize]) htouch ho fun x hx => (hs x).mp hx

theorem Good.store (h : Good hs live) (hb : b ∈ live) (h1 : b.ptr ≤ addr)
    (h2 : addr < b.ptr + b.size) : Good { hs with mem := hs.mem.set addr value } live := by
  refine ⟨h.low, h.high, h.tiling, h.nodup, fun b' hb' => (h.headers b' hb').congr fun x hx1 hx2 =>
    if_neg ?_⟩
  rintro rfl
  simp only [Block.ptr] at h1 h2
  rcases eq_or_ne b b' with rfl | hne
  · omega
  · have hd := h.tiling.disjoint.forall (List.mem_map_of_mem hb)
      (List.mem_map_of_mem hb') (Block.span_injective.ne hne)
    simp only [Span.Disjoint, Span.stop, Block.span] at hd
    omega

theorem Good.step (h : Good s.hs s.live) (hc : c.Legal s) (hstep : c.step s = some s') :
    Good s'.hs s'.live := by
  cases c with
  | imalloc node size pageAlign =>
    simp only [HeapCall.step, bind, Option.bind_eq_some_iff, Option.some.injEq] at hstep
    obtain ⟨⟨p, hs⟩, hm, rfl⟩ := hstep
    rcases h.imalloc hc.1 hm with ⟨rfl, rfl⟩ | ⟨a, rfl, -, hgood⟩
    · rw [if_pos rfl]
      exact h
    · rw [if_neg (by simp [headerSize]), Nat.add_sub_cancel]
      exact hgood
  | ifree node b =>
    simp only [HeapCall.step, bind, Option.bind_eq_some_iff, Option.some.injEq] at hstep
    obtain ⟨⟨message, hs⟩, hf, rfl⟩ := hstep
    exact (h.ifree hc.1 hc.2 hf).2
  | store addr value =>
    obtain rfl := Option.some.inj hstep
    obtain ⟨b, hb, h1, h2⟩ := hc
    exact h.store hb h1 h2

/-- Along every run that completes, a block that `imalloc` returns lies in the
area, apart from everything live and free, on a page if asked for, and with the
other headers intact. -/
theorem imalloc_safe {a : Area} (h0 : a.init = some s₀)
    (hr : Reach HeapCall.Legal HeapCall.step s₀ s)
    (hc : HeapCall.Legal s (.imalloc node size pageAlign))
    (hm : Vm.imalloc node size pageAlign s.hs = some (p, hs')) (hp : p ≠ 0) :
    ∃ b : Block, p = b.ptr ∧ b.size = size ∧ Safe s.live hs' pageAlign b := by
  have hgood : Good s.hs s.live := hr.invariant (fun s => Good s.hs s.live) (a.init_spec h0).1
    fun _ _ _ ht hc hstep => ht.step hc hstep
  rcases hgood.imalloc hc.1 hm with ⟨h, -⟩ | ⟨addr, rfl, ha, hgood'⟩
  · exact absurd h hp
  · exact ⟨⟨addr, size⟩, rfl, rfl, hgood'.safe ha⟩

def fourPages : Area :=
  ⟨0x100, 0x400000, 0x404000, 0x10000, true, false, fun _ => 0#8, by decide, by decide⟩

def fourPagesInit : RunState := fourPages.init.get (by decide +kernel)

theorem imalloc_safe_aligned :
    ∃ (s : RunState) (hs' : HeapState) (b : Block), s.live.length = 2 ∧ Safe s.live hs' true b := by
  obtain ⟨s, hr, hlen, hc, hm⟩ := Reach.exists_of_exec HeapCall.Legal
    HeapCall.step fourPagesInit
    (fun s => s.live.length = 2 ∧ HeapCall.Legal s (.imalloc 0x500 0x20 true) ∧
      (Vm.imalloc 0x500 0x20 true s.hs).any (fun r => r.1 ≠ 0) = true)
    [.imalloc 0x200 0x10 false, .imalloc 0x300 0x18 false, .store 0x400008 0xFF#8,
      .imalloc 0x400 0x100 false, .ifree 0x400 ⟨0x400018, 0x18⟩] (by decide +kernel)
  obtain ⟨⟨p, hs'⟩, hm, hp⟩ := (Option.any_eq_true _ _).mp hm
  obtain ⟨b, -, -, hb⟩ := imalloc_safe (a := fourPages) (Option.some_get _).symm hr hc hm
    (of_decide_eq_true hp)
  exact ⟨s, hs', b, hlen, hb⟩

-- ---------------------------------------------------------------------------
-- Lost memory
-- ---------------------------------------------------------------------------

/-- Every byte of the area is live or free, but for alignment fragments that
are too small for a header. -/
def NothingLost (s : RunState) : Prop :=
  Covered s.hs.heap.startAddr s.hs.heap.endAddr (spans s.hs.heap.root) (s.live.map Block.span)
    (s.fragments.filter (·.size ≤ headerSize))

/-- The request would pass the maximum, so the area does not grow. -/
def PastMaximum (pageAlign : Bool) (size : Nat) (hs : HeapState) : Prop :=
  align ((fragment pageAlign size hs).stop + headerSize + size) pageSize >
    add32 hs.heap.startAddr hs.heap.maxSize

/-- An allocation that has nothing to put back: the alignment skips no more
than a header, and what an expansion adds is used up to its last page. -/
def Thrifty (pageAlign : Bool) (size : Nat) (hs : HeapState) : Prop :=
  match findBestFit (wanted pageAlign size) hs.heap.root with
  | some _ => (fragment pageAlign size hs).size ≤ headerSize
  | none => PastMaximum pageAlign size hs ∨ ((fragment pageAlign size hs).size ≤ headerSize ∧
      pageSize ∣ (fragment pageAlign size hs).stop + headerSize + size)

def HeapCall.Keeps (s : RunState) : HeapCall → Prop
  | .imalloc node size pageAlign =>
    HeapCall.Legal s (.imalloc node size pageAlign) ∧ Thrifty pageAlign size s.hs
  | c => HeapCall.Legal s c

instance : Decidable (Thrifty pageAlign size hs) := by
  unfold Thrifty PastMaximum
  split <;> infer_instance

instance : Decidable (HeapCall.Keeps s c) := by
  cases c <;> unfold HeapCall.Keeps <;> infer_instance

theorem HeapCall.Keeps.legal (h : c.Keeps s) : c.Legal s := by
  cases c with
  | imalloc node size pageAlign => exact h.1
  | ifree node b => exact h
  | store addr value => exact h

theorem fragment_eq (front : Nat) (hfront : front = ((findBestFit (wanted pageAlign size) hs.heap.root).map
      Cell.base).getD hs.heap.endAddr)
    (hspot : a = if pageAlign then alignHeader front else front) (hle : front ≤ a)
    (ha : a < wordSize) : fragment pageAlign size hs = ⟨front, a - front⟩ := by
  simp only [fragment, ← hfront]
  split at hspot
  · rename_i hp
    rw [if_pos hp, ← hspot, sub32_eq hle ha]
  · rename_i hp
    rw [if_neg hp, hspot, Nat.sub_self]

theorem NothingLost.extended (h : NothingLost s) (hk : Thrifty pageAlign size s.hs)
    (hx : Extended pageAlign size s.hs hs' a) :
    NothingLost ⟨hs', ⟨a, size⟩ :: s.live, fragment pageAlign size s.hs :: s.fragments⟩ := by
  have hstop := hx.stop
  have hhigh := hx.high
  have hfront := hx.front
  have hfrag := fragment_eq s.hs.heap.endAddr (by rw [hx.missing]; rfl) hx.spot hfront
    (by omega)
  simp only [Thrifty, hx.missing, PastMaximum, hfrag, Span.stop, Nat.add_sub_cancel' hfront] at hk
  have hr := hx.rounded
  rcases hk with hpast | ⟨hsmall, hdvd⟩
  · -- then the area would not have grown
    have hlimit := hx.limit
    simp only [pageSize, wordSize] at hr hhigh
    rw [align_page _ (by simp only [pageSize, wordSize]; omega)] at hpast
    omega
  · have hend : hs'.heap.endAddr = a + headerSize + size := by
      simp only [pageSize] at hr hdvd
      omega
    simp only [NothingLost, hx.startAddr, hx.root, List.map_cons]
    refine Covered.grow h (fun x h1 h2 => ?_) fun g hg => ?_
    · rw [hfrag, List.filter_cons_of_pos (by simpa using hsmall)]
      rcases Nat.lt_or_ge x a with hlt | hge
      · exact .inr ⟨_, List.mem_cons_self, h1, by simp only [Span.stop]; omega⟩
      · exact .inl ⟨hge, by simp only [Span.stop, Block.span]; omega⟩
    · rw [List.filter_cons]
      split
      · exact List.mem_cons_of_mem _ hg
      · exact hg

theorem NothingLost.cut (h : NothingLost s) (hgood : Good s.hs s.live)
    (hk : Thrifty pageAlign size s.hs) (hx : Cut pageAlign size s.hs hs' best placed) :
    NothingLost ⟨hs', ⟨placed.allocAddr, size⟩ :: s.live,
      fragment pageAlign size s.hs :: s.fragments⟩ := by
  have hbase := hx.fits.base
  have hstop := hx.fits.stop
  have hfront := hx.fits.front
  have hin := hgood.tiling.freeIn _ (mem_spans_of_mem (findBestFit_mem hx.found).1)
  have hhigh := hgood.high
  simp only [Span.Within, Span.stop, Cell.span] at hin
  have hfrag := fragment_eq best.base (by rw [hx.found]; rfl) hx.fits.spot hfront
    (by omega)
  simp only [Thrifty, hx.found, hfrag] at hk
  simp only [NothingLost, hx.startAddr, hx.endAddr, List.map_cons]
  refine Covered.cut (c := best.span) h (fun x hxc => ?_) (fun f hf hne => ?_) fun g hg => ?_
  · rw [hfrag, List.filter_cons_of_pos (by simpa using hk)]
    simp only [Span.mem_iff, Cell.span] at hxc
    rcases Nat.lt_or_ge x placed.allocAddr with hlt | hge
    · exact .inr (.inr ⟨_, List.mem_cons_self, hxc.1, by simp only [Span.stop]; omega⟩)
    · rcases Nat.lt_or_ge x placed.base with hlt | hge'
      · exact .inl ⟨hge, by simp only [Span.stop, Block.span]; omega⟩
      · refine .inr (.inl ⟨⟨placed.base, placed.size⟩,
          (hx.spans _).mpr (.inr ⟨by omega, rfl⟩), hge', by simp only [Span.stop]; omega⟩)
  · exact (hx.spans f).mpr (.inl ⟨hf, hne⟩)
  · rw [List.filter_cons]
    split
    · exact List.mem_cons_of_mem _ hg
    · exact hg

theorem NothingLost.step (h : NothingLost s) (hgood : Good s.hs s.live) (hc : c.Keeps s)
    (hstep : c.step s = some s') : NothingLost s' := by
  cases c with
  | imalloc node size pageAlign =>
    obtain ⟨⟨hw, -⟩, hk⟩ := hc
    simp only [HeapCall.step, bind, Option.bind_eq_some_iff, Option.some.injEq] at hstep
    obtain ⟨⟨p, hs⟩, hm, rfl⟩ := hstep
    rcases heapAlloc_cases hgood.tiling hgood.nodup hgood.low hgood.high hw hm with
      ⟨rfl, rfl⟩ | ⟨a, rfl, hx⟩ | ⟨best, placed, rfl, hx⟩
    · rw [if_pos rfl]
      exact h
    · rw [if_neg (by simp [headerSize]), Nat.add_sub_cancel]
      exact h.extended hk hx
    · rw [if_neg (by simp [headerSize]), Nat.add_sub_cancel]
      exact h.cut hgood hk hx
  | ifree node b =>
    simp only [HeapCall.step, bind, Option.bind_eq_some_iff, Option.some.injEq] at hstep
    obtain ⟨⟨message, hs⟩, hf, rfl⟩ := hstep
    obtain ⟨root, L, R, rfl, htouch, hs⟩ := hgood.ifree_spans hc.1 hf
    simp only [NothingLost, List.map_erase Block.span_injective]
    exact Covered.release h htouch ((hs _).mpr (.inl rfl)) fun f hf hl hr =>
      (hs f).mpr (.inr ⟨hf, hl, hr⟩)
  | store addr value =>
    obtain rfl := Option.some.inj hstep
    exact h

/-- Along every run whose allocations have nothing to put back, nothing of the
area gets lost. -/
theorem nothing_lost {a : Area} (h0 : a.init = some s₀)
    (hr : Reach HeapCall.Keeps HeapCall.step s₀ s) : NothingLost s := by
  refine (hr.invariant (fun s => Good s.hs s.live ∧ NothingLost s) ?_ ?_).2
  · obtain ⟨hgood, hcov⟩ := a.init_spec h0
    refine ⟨hgood, fun x h1 h2 => ?_⟩
    rcases hcov x h1 h2 with hx | hx | ⟨g, hg, -⟩
    · exact .inl hx
    · exact .inr (.inl hx)
    · cases hg
  · rintro t c u ⟨hgood, hcov⟩ hc hstep
    exact ⟨hgood.step hc.legal hstep, hcov.step hgood hc hstep⟩

theorem nothing_lost_three : ∃ s : RunState, s.live.length = 2 ∧ NothingLost s := by
  obtain ⟨s, hr, hlen⟩ := Reach.exists_of_exec HeapCall.Keeps
    HeapCall.step fourPagesInit (fun s => s.live.length = 2)
    [.imalloc 0x200 0xFF0 false, .imalloc 0x300 0x18 true, .imalloc 0x400 0x100 false,
      .ifree 0x400 ⟨0x401018, 0x100⟩] (by decide +kernel)
  exact ⟨s, hlen, nothing_lost (a := fourPages) (Option.some_get _).symm hr⟩

/-- The first byte of the area is lost to an aligned block of eight bytes: the
fragment before it has the base of the block it is cut from. -/
theorem fragment_lost : ¬ ∀ (a : Area) (s₀ s : RunState), a.init = some s₀ →
    Reach HeapCall.Legal HeapCall.step s₀ s → NothingLost s := by
  intro h
  obtain ⟨s, hr, hlo, hhi, hlive, hfree, hfrag⟩ := Reach.exists_of_exec
    HeapCall.Legal HeapCall.step fourPagesInit
    (fun s => s.hs.heap.startAddr ≤ 0x400000 ∧ 0x400000 < s.hs.heap.endAddr ∧
      (∀ b ∈ s.live, 0x400000 ∉ b.span) ∧ (∀ f ∈ spans s.hs.heap.root, 0x400000 ∉ f) ∧
      s.fragments.filter (·.size ≤ headerSize) = [])
    [.imalloc 0x200 8 true] (by decide +kernel)
  rcases h fourPages fourPagesInit s (Option.some_get _).symm hr 0x400000 hlo hhi with
    ⟨x, hx, hmem⟩ | ⟨f, hf, hmem⟩ | ⟨g, hg, -⟩
  · obtain ⟨b, hb, rfl⟩ := List.mem_map.mp hx
    exact hlive b hb hmem
  · exact hfree f hf hmem
  · rw [hfrag] at hg
    cases hg

end

end Shigure.Vm
