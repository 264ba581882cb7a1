import Shigure.Avl.Runs
import Shigure.Vm.Limits

/-!
# Every size that can be asked for

`imalloc` takes any 32-bit size. The sums of `heap_alloc` and `expand_heap` wrap
without a check, each on its own branch: the size to search for, the sum that is
cut from the best fit, and the new end of the area. A request is handled if it
is refused with nothing changed or gets a block of its size. `imalloc_handles_iff`
says for which sizes that is so: no sum wraps, or the area would have to grow and
the new end passes the limit as the code computes it. Besides there are a few sizes
for which the sums wrap to what is there already.
-/

namespace Shigure.Vm

open Avl

/-- A heap over whole pages, whose free blocks are in order, apart from each other
and from the live ones. -/
structure WellFormed (s : HeapState) (live : List Span) : Prop where
  low : s.heap.startAddr ≤ s.heap.endAddr
  high : s.heap.endAddr < wordSize
  startPage : pageSize ∣ s.heap.startAddr
  endPage : pageSize ∣ s.heap.endAddr
  tiling : Tiling s.heap.startAddr s.heap.endAddr (spans s.heap.root) live
  nodup : (addrs s.heap.root).Nodup

/-- 0, with the same blocks in the same nodes and the end where it was. -/
structure RequestRefused (p : Nat) (s s' : HeapState) : Prop where
  zero : p = 0
  spans : spans s'.heap.root = spans s.heap.root
  addrs : addrs s'.heap.root = addrs s.heap.root
  endAddr : s'.heap.endAddr = s.heap.endAddr

/-- The block is part of one free block, of which only what lies behind the
block stays free. -/
def CutFromFree (b : Span) (s s' : HeapState) : Prop :=
  ∃ f ∈ spans s.heap.root, b.Within f.base f.stop ∧ ∀ x, x ∈ spans s'.heap.root ↔
    (x ∈ spans s.heap.root ∧ x ≠ f) ∨ (b.stop < f.stop ∧ x = ⟨b.stop, f.stop - b.stop⟩)

def CutFromGrowth (b : Span) (s s' : HeapState) : Prop :=
  b.Within s.heap.endAddr s'.heap.endAddr ∧ s'.heap.root = s.heap.root

/-- A block of the size that was asked for, header included, inside the area. -/
structure RequestServed (size p : Nat) (s s' : HeapState) : Prop where
  low : s.heap.startAddr + headerSize ≤ p
  stop : p + size ≤ s'.heap.endAddr
  grown : s.heap.endAddr ≤ s'.heap.endAddr
  cut : CutFromFree ⟨p - headerSize, size + headerSize⟩ s s' ∨
    CutFromGrowth ⟨p - headerSize, size + headerSize⟩ s s'

/-- What an expansion has to add at the end of a heap over whole pages: the header and
the block, the header as far behind the end as the alignment asks. -/
def growth (pageAlign : Bool) (size : Nat) : Nat :=
  size + if pageAlign then pageSize else headerSize

/-- The area would have to grow and the new end passes the limit, both as the code
computes them. -/
def GrowthRefused (pageAlign : Bool) (size : Nat) (s : HeapState) : Prop :=
  findBestFit (wanted pageAlign size) s.heap.root = none ∧
    PastLimit (growth pageAlign size) s.heap

/-- The sums wrap to what is there already: the new end to the old one, with the header in
the last bytes of the address space or an empty area, or the rest of the best fit to all
of it. -/
def WrapsToSame (pageAlign : Bool) (size : Nat) (s : HeapState) : Prop :=
  match findBestFit (wanted pageAlign size) s.heap.root with
  | none => roundUp (growth pageAlign size) = wordSize ∧
      (s.heap.endAddr = s.heap.startAddr ∨
        (pageAlign = true ∧ s.heap.endAddr + pageSize = wordSize))
  | some best => pageAlign = true ∧ best.base = size

section
variable {pageAlign : Bool} {node size p a : Nat} {s s' : HeapState} {live : List Span}
  {best : Cell} {placed : Placed} {t t' root : AvlNode}

-- ---------------------------------------------------------------------------
-- Blocks of the right size
-- ---------------------------------------------------------------------------

theorem Extended.served (h : Extended pageAlign size s s' a)
    (hlow : s.heap.startAddr ≤ s.heap.endAddr) : RequestServed size (a + headerSize) s s' := by
  have hfront := h.front
  have hstop := h.stop
  refine ⟨by omega, hstop, by omega, .inr ⟨?_, h.root⟩⟩
  simp only [Span.Within, Span.stop, Nat.add_sub_cancel]
  omega

theorem Cut.served (h : Cut pageAlign size s s' best placed) (hw : WellFormed s live) :
    RequestServed size (placed.allocAddr + headerSize) s s' := by
  have hmem := mem_spans_of_mem (findBestFit_mem h.found).1
  have hin := hw.tiling.freeIn _ hmem
  have hfront := h.fits.front
  have hbase := h.fits.base
  have hstop := h.fits.stop
  simp only [Span.Within, Span.stop, Cell.span] at hin
  refine ⟨by omega, by rw [h.endAddr]; omega, by rw [h.endAddr], .inl ⟨_, hmem, ?_, fun x => ?_⟩⟩
  · simp only [Span.Within, Span.stop, Cell.span, Nat.add_sub_cancel]
    omega
  · have hrest : (⟨placed.base, placed.size⟩ : Span) = ⟨placed.allocAddr + (size + headerSize),
        best.base + best.size - (placed.allocAddr + (size + headerSize))⟩ := by
      rw [Span.mk.injEq]
      omega
    rw [h.spans, hrest]
    simp only [Span.stop, Cell.span, Nat.add_sub_cancel]
    refine or_congr_right (and_congr_left fun _ => ?_)
    omega

theorem handled_of_noWrap (hw : WellFormed s live) (hn : NoWrap pageAlign size s)
    (h : imalloc node size pageAlign s = some (p, s')) :
    RequestRefused p s s' ∨ RequestServed size p s s' := by
  obtain ⟨rfl, rfl⟩ | ⟨a, rfl, hx⟩ | ⟨best, placed, rfl, hx⟩ :=
    heapAlloc_cases hw.tiling hw.nodup hw.low hw.high hn h
  · exact .inl ⟨rfl, rfl, rfl, rfl⟩
  · exact .inr (hx.served hw.low)
  · exact .inr (hx.served hw)

-- ---------------------------------------------------------------------------
-- Growth
-- ---------------------------------------------------------------------------

theorem roundUp_add (ha : pageSize ∣ a) (n : Nat) : roundUp (a + n) = a + roundUp n := by
  obtain ⟨k, rfl⟩ := ha
  simp only [roundUp, pageSize]
  omega

theorem WellFormed.end_le (hw : WellFormed s live) : s.heap.endAddr + pageSize ≤ wordSize := by
  have hhigh := hw.high
  have hpage := hw.endPage
  simp only [pageSize, wordSize] at *
  omega

/-- The header goes right before the next page, also before the last address. -/
theorem alignHeader_eq (h : roundUp (a + headerSize) ≤ wordSize) :
    alignHeader a = roundUp (a + headerSize) - headerSize := by
  have hle := le_roundUp (a + headerSize)
  rw [alignHeader, align_add32]
  generalize roundUp (a + headerSize) = up at *
  simp only [sub32, headerSize, wordSize] at *
  omega

theorem alignHeader_page (ha : pageSize ∣ a) (hle : a + pageSize ≤ wordSize) :
    alignHeader a = a + (pageSize - headerSize) := by
  have hup : roundUp (a + headerSize) = a + pageSize := roundUp_add ha headerSize
  rw [alignHeader_eq (hup ▸ hle), hup]
  rfl

theorem growth_spot (hw : WellFormed s live) (pageAlign : Bool) (size : Nat) :
    (if pageAlign then alignHeader s.heap.endAddr else s.heap.endAddr) =
      s.heap.endAddr + (growth pageAlign size - size) - headerSize := by
  rw [growth, Nat.add_sub_cancel_left, alignHeader_page hw.endPage hw.end_le]
  simp only [pageSize, headerSize]
  split <;> omega

theorem growth_sum (hw : WellFormed s live) (pageAlign : Bool) (size : Nat) :
    add32 (add32 (sub32 (if pageAlign then alignHeader s.heap.endAddr else s.heap.endAddr)
      s.heap.endAddr) headerSize) size = growth pageAlign size % wordSize := by
  have hle := hw.end_le
  rw [growth_spot hw pageAlign size, growth, Nat.add_sub_cancel_left]
  simp only [add32, sub32, pageSize, headerSize, wordSize] at *
  split <;> omega

theorem add32_mod (a n : Nat) : add32 a (n % wordSize) = add32 a n := Nat.add_mod_mod _ _ _

theorem heapAlloc_missing (hw : WellFormed s live)
    (hnone : findBestFit (wanted pageAlign size) s.heap.root = none) :
    heapAlloc node pageAlign size s =
      let r := expandHeap (growth pageAlign size) s
      if r.1 = 0 then some (0, r.2)
      else some ((s.heap.endAddr + (growth pageAlign size - size)) % wordSize,
        r.2.storeHeader (s.heap.endAddr + (growth pageAlign size - size) - headerSize) size) := by
  have hwrap : ∀ n, expandHeap (n % wordSize) s = expandHeap n s := fun n => by
    simp only [expandHeap, add32_mod]
  have hback : add32 (s.heap.endAddr + (growth pageAlign size - size) - headerSize) headerSize =
      (s.heap.endAddr + (growth pageAlign size - size)) % wordSize := by
    rw [growth, Nat.add_sub_cancel_left, add32]
    simp only [pageSize, headerSize]
    split <;> congr 1
  have hspot := growth_spot hw pageAlign size
  have hsum := growth_sum hw pageAlign size
  rw [hspot] at hsum
  simp only [heapAlloc, hnone, hspot, hsum, hwrap, hback]

/-- Where the area has to grow, no sum wraps exactly if the new end does not. -/
theorem noWrap_missing (hw : WellFormed s live)
    (hnone : findBestFit (wanted pageAlign size) s.heap.root = none) :
    NoWrap pageAlign size s ↔ s.heap.endAddr + roundUp (growth pageAlign size) < wordSize := by
  have hpage := hw.endPage
  simp only [NoWrap, hnone, forall_const, growth, roundUp]
  cases pageAlign with
  | false =>
    simp only [Bool.false_eq_true, if_false, pageSize, headerSize, wordSize] at *
    omega
  | true =>
    simp only [if_true, pageSize, headerSize, wordSize] at *
    omega

theorem missing_wrapped_iff (hw : WellFormed s live) (hsize : size < wordSize)
    (hnone : findBestFit (wanted pageAlign size) s.heap.root = none)
    (hlimit : ¬ PastLimit (growth pageAlign size) s.heap)
    (hwrap : wordSize ≤ s.heap.endAddr + roundUp (growth pageAlign size))
    (h : imalloc node size pageAlign s = some (p, s')) :
    (RequestRefused p s s' ∨ RequestServed size p s s') ↔ WrapsToSame pageAlign size s := by
  have hle := hw.end_le
  have hlow := hw.low
  have hgrowth : size + headerSize ≤ growth pageAlign size ∧
      growth pageAlign size ≤ size + pageSize := by
    rw [growth]
    split <;> simp only [pageSize, headerSize] <;> omega
  have hptr : (s.heap.endAddr + (growth pageAlign size - size)) % wordSize = 0 ↔
      pageAlign = true ∧ s.heap.endAddr + pageSize = wordSize := by
    rw [growth, Nat.add_sub_cancel_left]
    cases pageAlign with
    | false =>
      simp only [Bool.false_eq_true, if_false, false_and, iff_false]
      simp only [pageSize, headerSize, wordSize] at *
      omega
    | true =>
      simp only [if_true, true_and]
      simp only [pageSize, headerSize, wordSize] at *
      omega
  have hround := le_roundUp (growth pageAlign size)
  have hround' := roundUp_lt (growth pageAlign size)
  have hend := roundUp_add hw.endPage (growth pageAlign size)
  rw [imalloc, heapAlloc_missing hw hnone, expandHeap_accepted hlimit, hend] at h
  simp only [WrapsToSame, hnone]
  rw [← hptr]
  generalize growth pageAlign size = g at *
  generalize roundUp g = up at *
  clear hptr
  dsimp only at h
  have htotal : sub32 ((s.heap.endAddr + up) % wordSize) s.heap.startAddr = 0 ↔
      (s.heap.endAddr + up) % wordSize = s.heap.startAddr := by
    simp only [sub32, pageSize, wordSize] at *
    omega
  split at h
  · rename_i hzero
    rw [htotal] at hzero
    cases h
    constructor
    · rintro (hr | hs)
      · have hsame := hr.endAddr
        dsimp only at hsame
        simp only [pageSize, headerSize, wordSize] at *
        omega
      · have := hs.low
        simp only [headerSize] at this
        omega
    · rintro ⟨hup, -⟩
      refine .inl ⟨rfl, rfl, rfl, ?_⟩
      dsimp only
      rw [hup, Nat.add_mod_right, Nat.mod_eq_of_lt hw.high]
  · rename_i hzero
    rw [htotal] at hzero
    cases h
    constructor
    · rintro (hr | hs)
      · have hp := hr.zero
        have hsame := hr.endAddr
        simp only [HeapState.storeHeader] at hsame
        simp only [pageSize, headerSize, wordSize] at *
        omega
      · have hl := hs.low
        have hstop := hs.stop
        simp only [HeapState.storeHeader] at hstop
        simp only [pageSize, headerSize, wordSize] at *
        omega
    · rintro ⟨hup, hcase⟩
      refine .inl ⟨?_, rfl, rfl, ?_⟩
      · simp only [pageSize, headerSize, wordSize] at *
        omega
      · simp only [HeapState.storeHeader]
        rw [hup, Nat.add_mod_right, Nat.mod_eq_of_lt hw.high]

-- ---------------------------------------------------------------------------
-- A best fit that is too small
-- ---------------------------------------------------------------------------

theorem setBlock_same_iff (base n : Nat) (hn : (addrs t).Nodup) (hc : best ∈ inorder t) :
    spans (setBlock best.addr base n t) = spans t ↔ base = best.base ∧ n = best.size := by
  obtain ⟨L, R, hLR, hset⟩ := setBlock_split base n hn hc
  simp only [spans, hLR, hset, List.map_append, List.map_cons, Cell.span, List.append_cancel_left_eq,
    List.cons.injEq, Span.mk.injEq, and_true]

theorem shrink_same_iff (hw : WellFormed s live) (hc : best ∈ inorder s.heap.root)
    (hs : spans t = spans s.heap.root) (ha : addrs t = addrs s.heap.root) {base n : Nat}
    (hused : n = 0 → base = best.base + best.size)
    (h : removeUsed base n (setBlock best.addr base n t) = some t') :
    (spans t' = spans s.heap.root ∧ addrs t' = addrs s.heap.root) ↔
      base = best.base ∧ n = best.size := by
  obtain ⟨c, hc', haddr, hspan⟩ := exists_same_cell hs ha hc
  have hcell : c.base = best.base ∧ c.size = best.size := by
    simpa only [Cell.span, Span.mk.injEq] using hspan
  have hn : (addrs t).Nodup := ha ▸ hw.nodup
  have hpos := hw.tiling.pos _ (mem_spans_of_mem hc)
  simp only [Cell.span] at hpos
  rw [← haddr] at h
  rw [← hs, ← ha, ← hcell.1, ← hcell.2]
  rw [removeUsed] at h
  split at h
  · rename_i hz
    subst hz
    refine iff_of_false ?_ (by rintro ⟨-, h0⟩; omega)
    rintro ⟨hsame, -⟩
    have hend := hused rfl
    rw [← hcell.1, ← hcell.2] at hend
    rw [hend] at h
    obtain ⟨-, hmem⟩ := deleteUsed_spans (hs ▸ hw.tiling) hn hc' h
    exact ((hmem c.span).mp (hsame ▸ mem_spans_of_mem hc')).2 rfl
  · obtain rfl := Option.some.inj h
    rw [← setBlock_same_iff base n hn hc']
    exact and_iff_left (setBlock_addrs _ _ _ _)

theorem found_wrapped_iff (hw : WellFormed s live) (hsize : size < wordSize)
    (hbest : findBestFit (wanted pageAlign size) s.heap.root = some best)
    (hwrap : wordSize ≤ size + headerSize + if pageAlign then pageSize - 1 else 0)
    (h : imalloc node size pageAlign s = some (p, s')) :
    (RequestRefused p s s' ∨ RequestServed size p s s') ↔ WrapsToSame pageAlign size s := by
  obtain ⟨hc, hfits⟩ := findBestFit_mem hbest
  have hin := hw.tiling.freeIn _ (mem_spans_of_mem hc)
  have hpos := hw.tiling.pos _ (mem_spans_of_mem hc)
  have hle := hw.end_le
  simp only [Cell.span, Span.Within, Span.stop] at hin hpos
  have hlarge : wordSize ≤ size + headerSize + (pageSize - 1) := by
    refine hwrap.trans ?_
    split <;> omega
  rw [imalloc, heapAlloc, hbest] at h
  simp only [bind, Option.bind_eq_some_iff, Option.some.injEq, Prod.mk.injEq] at h
  obtain ⟨placed, hplace, root, hroot, rfl, rfl⟩ := h
  have hno : ¬ RequestServed size (add32 placed.allocAddr headerSize) s
      ((s.setRoot root).storeHeader placed.allocAddr size) := fun hs => by
    have hlow := hs.low
    have hstop := hs.stop
    simp only [HeapState.storeHeader, HeapState.setRoot] at hstop
    simp only [pageSize, headerSize, wordSize] at *
    omega
  rw [or_iff_left hno]
  simp only [WrapsToSame, hbest]
  rw [place] at hplace
  split at hplace
  · rename_i hal
    simp only [bind, Option.bind_eq_some_iff, Option.some.injEq] at hplace
    obtain ⟨t, hfragment, rfl⟩ := hplace
    obtain ⟨hspans, haddrs⟩ := insertFragment_same _ hw.tiling.sorted hc hfragment
    have hup : roundUp (best.base + headerSize) ≤ wordSize := by
      refine roundUp_le (by decide) ?_
      simp only [pageSize, headerSize, wordSize] at *
      omega
    have hlo := le_roundUp (best.base + headerSize)
    have hdvd := dvd_roundUp (best.base + headerSize)
    have hwanted : size + headerSize + (pageSize - 1) - wordSize ≤ best.size := by
      refine le_trans ?_ hfits
      rw [wanted, if_pos hal.1]
      simp only [add32, pageSize, headerSize, wordSize] at *
      omega
    simp only [alignHeader_eq hup] at hroot ⊢
    generalize roundUp (best.base + headerSize) = up at *
    have hsame : up = wordSize → ((spans root = spans s.heap.root ∧ addrs root = addrs s.heap.root) ↔
        best.base = size) := fun hlast => by
      subst hlast
      rw [shrink_same_iff hw hc hspans haddrs ?_ hroot]
      · simp only [add32, sub32, pageSize, headerSize, wordSize] at *
        omega
      · simp only [add32, sub32, pageSize, headerSize, wordSize] at *
        omega
    constructor
    · intro hr
      have hzero := hr.zero
      refine ⟨hal.1, (hsame ?_).mp ⟨hr.spans, hr.addrs⟩⟩
      simp only [add32, pageSize, headerSize, wordSize] at *
      omega
    · rintro ⟨-, hbase⟩
      have hlast : up = wordSize := by
        simp only [add32, pageSize, headerSize, wordSize] at *
        omega
      obtain ⟨h1, h2⟩ := (hsame hlast).mpr hbase
      refine ⟨?_, h1, h2, rfl⟩
      rw [hlast]
      decide
  · rename_i hal
    obtain rfl := Option.some.inj hplace
    refine iff_of_false (fun hr => ?_) ?_
    · have hzero := hr.zero
      simp only [add32, pageSize, headerSize, wordSize] at *
      omega
    · rintro ⟨hp, hbase⟩
      simp only [hp, true_and, not_not] at hal
      simp only [pageSize, headerSize, wordSize] at *
      omega

-- ---------------------------------------------------------------------------
-- Every size
-- ---------------------------------------------------------------------------

theorem insertFragment_some (node offset : Nat) (ha : IsAvl root) (base : Nat) :
    ∃ t, insertFragment node base offset root = some t ∧ Positive t := by
  rw [insertFragment]
  split
  · rename_i hoffset
    obtain ⟨t, ht, -⟩ := insert_go_path node offset ha.positive (ha.path base)
    rw [avlInsert, if_neg (by omega)]
    exact ⟨t, ht, insert_go_positive ha.positive ht⟩
  · exact ⟨root, rfl, ha.positive⟩

/-- On a tree of AVL shape no rotation meets a missing child. -/
theorem imalloc_completes (ha : AvlShape s.heap.root) :
    (imalloc node size pageAlign s).isSome := by
  have ha := isAvl_iff.mpr ha
  rw [imalloc, heapAlloc]
  split
  · simp only [apply_ite Option.isSome, Option.isSome_some, ite_self]
  · rename_i best hbest
    obtain ⟨placed, hplaced, hpos⟩ : ∃ placed,
        place node pageAlign size best s.heap.root = some placed ∧ Positive placed.root := by
      rw [place]
      split
      · obtain ⟨t, ht, hpos⟩ := insertFragment_some node
          (sub32 (alignHeader best.base) best.base) ha best.base
        simp only [ht, Option.bind_eq_bind, Option.bind_some]
        exact ⟨_, rfl, hpos⟩
      · exact ⟨_, rfl, ha.positive⟩
    have hset : Positive (setBlock best.addr placed.base placed.size placed.root) :=
      setBlock_positive best.addr hpos
    obtain ⟨t, ht, -⟩ := avlDelete_some hset placed.base
    rw [hplaced, Option.bind_eq_bind, Option.bind_some, removeUsed]
    split
    · rw [ht]
      rfl
    · rfl

theorem noWrap_found (hbest : findBestFit (wanted pageAlign size) s.heap.root = some best) :
    NoWrap pageAlign size s ↔ size + headerSize + (if pageAlign then pageSize - 1 else 0) < wordSize := by
  simp only [NoWrap, hbest, reduceCtorEq, false_implies, and_true]

/-- `imalloc` completes on a tree of AVL shape. It refuses with nothing changed or hands
out a block of the size asked for exactly if no sum wraps, or the area would have to grow
past the limit that the code computes, or the sums wrap to what is there. -/
theorem imalloc_handles_iff (hw : WellFormed s live) (hsize : size < wordSize) :
    (AvlShape s.heap.root → (imalloc node size pageAlign s).isSome) ∧
    ∀ p s', imalloc node size pageAlign s = some (p, s') →
      ((RequestRefused p s s' ∨ RequestServed size p s s') ↔
        NoWrap pageAlign size s ∨ GrowthRefused pageAlign size s ∨
          WrapsToSame pageAlign size s) := by
  refine ⟨imalloc_completes, fun p s' h => ?_⟩
  by_cases hn : NoWrap pageAlign size s
  · exact iff_of_true (handled_of_noWrap hw hn h) (.inl hn)
  · rw [or_iff_right hn]
    cases hfit : findBestFit (wanted pageAlign size) s.heap.root with
    | some best =>
      rw [noWrap_found hfit, Nat.not_lt] at hn
      rw [found_wrapped_iff hw hsize hfit hn h, or_iff_right]
      rintro ⟨hnone, -⟩
      rw [hfit] at hnone
      cases hnone
    | none =>
      rw [noWrap_missing hw hfit, Nat.not_lt] at hn
      by_cases hlimit : PastLimit (growth pageAlign size) s.heap
      · refine iff_of_true (.inl ?_) (.inl ⟨hfit, hlimit⟩)
        rw [imalloc, heapAlloc_missing hw hfit, expandHeap_refused hlimit] at h
        cases h
        exact ⟨rfl, rfl, rfl, rfl⟩
      · rw [missing_wrapped_iff hw hsize hfit hlimit hn h, or_iff_right]
        exact fun hr => hlimit hr.2

def onePage : HeapState :=
  ⟨⟨createNode 0x100 0x400000 0x1000, 0x400000, 0x401000, 0x10000, true, false⟩, fun _ => 0, []⟩

theorem onePage_wellFormed : WellFormed onePage [] :=
  ⟨by decide, by decide, by decide, by decide, Tiling.startFull (by decide), by decide⟩

theorem onePage_shape : AvlShape onePage.heap.root := ⟨rfl, by decide, trivial, trivial⟩

theorem imalloc_handles_onePage : ∃ p s', imalloc 0x200 0xFF8 false onePage = some (p, s') ∧
    (RequestRefused p onePage s' ∨ RequestServed 0xFF8 p onePage s') := by
  obtain ⟨hsome, hiff⟩ := imalloc_handles_iff onePage_wellFormed
    (by decide : 0xFF8 < wordSize)
  obtain ⟨⟨p, s'⟩, h⟩ := Option.isSome_iff_exists.mp (hsome onePage_shape)
  exact ⟨p, s', h, (hiff p s' h).mpr (.inl (by decide))⟩

/-- Asked for all but eight bytes of the address space, `heap_alloc` searches for a free
block of no bytes and hands it out. -/
theorem size_wrapped : ¬ ∀ (s : HeapState) (live : List Span) (node size : Nat)
    (pageAlign : Bool) (p : Nat) (s' : HeapState), WellFormed s live → AvlShape s.heap.root →
    size < wordSize → imalloc node size pageAlign s = some (p, s') →
    RequestRefused p s s' ∨ RequestServed size p s s' := by
  intro hall
  obtain ⟨⟨p, s'⟩, h⟩ := Option.isSome_iff_exists.mp
    (show (imalloc 0x200 0xFFFFFFF8 false onePage).isSome by decide)
  have hp : (imalloc 0x200 0xFFFFFFF8 false onePage).map
      (fun r => (r.1, r.2.heap.endAddr)) = some (0x400008, 0x401000) := by decide
  rw [h, Option.map_some, Option.some.injEq, Prod.mk.injEq] at hp
  rcases hall onePage [] 0x200 0xFFFFFFF8 false p s' onePage_wellFormed
    onePage_shape (by decide) h with hr | hs
  · exact absurd (hp.1.symm.trans hr.zero) (by decide)
  · have hstop := hs.stop
    dsimp only at hp
    omega

end

end Shigure.Vm
