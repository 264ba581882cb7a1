import Shigure.Vm.KHeapRuns

/-!
# A heap that gets nothing back

As long as no block is released, the free memory of the kernel heap is one block
up to its end. What is left before a block on a page is lost: the fragment has the
base of the free block, which is still in the tree, so that `avl_insert` takes it
for a duplicate.
-/

namespace Shigure.Vm.KHeap

open Avl (Cell addrs spans Ordered)

/-- The memory from `c` to the end is free, and nothing else. -/
structure Bump (s : KState) (held : List Block) (c : Nat) : Prop where
  low : kheapStart ≤ c
  high : c ≤ kheapEnd
  tree : ∃ t, Good s held t ∧ ∀ x, x ∈ spans t ↔ c < kheapEnd ∧ x = ⟨c, kheapEnd - c⟩

def room (pageAlign : Bool) (size : Nat) : Nat :=
  size + headerSize + if pageAlign then pageSize - 1 else 0

def nextHeader (pageAlign : Bool) (c : Nat) : Nat := if pageAlign then alignHeader c else c

section
variable {s s' : KState} {held : List Block} {t : Avl.AvlNode} {c size p : Nat} {pageAlign : Bool}

theorem single_node {x : Span} (ho : Ordered t) (h : ∀ y, y ∈ spans t ↔ y = x) :
    ∃ cell, t = .node cell .nil .nil ∧ cell.span = x := by
  cases t with
  | nil => exact absurd ((h x).mpr rfl) (by simp)
  | node cell l r =>
    have hx : cell.span = x := (h _).mp (by simp)
    obtain ⟨-, -, hl, hr⟩ := Avl.ordered_node.mp ho
    have hbase : cell.base = x.base := congrArg Span.base hx
    have hl' : l = .nil := by
      cases l with
      | nil => rfl
      | node d dl dr =>
        have hd : d.span = x := (h _).mp (by simp)
        have hlt := hl d.span (by simp)
        rw [hd, hbase] at hlt
        exact absurd hlt (Nat.lt_irrefl _)
    have hr' : r = .nil := by
      cases r with
      | nil => rfl
      | node d dl dr =>
        have hd : d.span = x := (h _).mp (by simp)
        have hlt := hr d.span (by simp)
        rw [hd, hbase] at hlt
        exact absurd hlt (Nat.lt_irrefl _)
    exact ⟨cell, by rw [hl', hr'], hx⟩

/-- The fragment is taken for a duplicate. -/
theorem place_single {cell : Cell} : ∃ placed,
    place 0 pageAlign size cell (.node cell .nil .nil) = some placed := by
  have hfragment : ∀ n, Vm.insertFragment 0 cell.base n (.node cell .nil .nil) =
      some (.node cell .nil .nil) := by
    intro n
    rw [Vm.insertFragment]
    split
    · rw [Avl.avlInsert]
      split
      · rfl
      · rw [Avl.avlInsert.go, if_neg (Nat.lt_irrefl _), if_neg (Nat.lt_irrefl _)]
    · rfl
  rw [place]
  split
  · dsimp only
    rw [hfragment]
    exact ⟨_, rfl⟩
  · exact ⟨_, rfl⟩

theorem wanted_eq_room (h : Good s held t) (hw : NoWrap pageAlign size) :
    wanted pageAlign size = room pageAlign size :=
  (hw.view (t := t) h.endAddr).wanted_eq

/-- A request is cut from the front of what is free. -/
theorem Bump.alloc (h : Bump s held c) (hw : NoWrap pageAlign size)
    (hroom : c + room pageAlign size ≤ kheapEnd) :
    ∃ s', ikmalloc size pageAlign s = some (nextHeader pageAlign c + headerSize, s') ∧
      Bump s' (⟨nextHeader pageAlign c, size⟩ :: held) (nextHeader pageAlign c + headerSize + size) := by
  obtain ⟨t, hgood, hspans⟩ := h.tree
  have hlow := h.low
  have hlt : c < kheapEnd := by
    simp only [room, headerSize] at hroom
    omega
  obtain ⟨cell, rfl, hcell⟩ := single_node hgood.ordered fun y => by rw [hspans, and_iff_right hlt]
  have hbase : cell.base = c := congrArg Span.base hcell
  have hsize : cell.size = kheapEnd - c := congrArg Span.size hcell
  have hf : Avl.findBestFit (wanted pageAlign size) (.node cell .nil .nil) = some cell := by
    rw [wanted_eq_room hgood hw, Avl.findBestFit, if_pos (by omega)]
    rfl
  obtain ⟨r, hm⟩ : ∃ r, ikmalloc size pageAlign s = some r := by
    obtain ⟨placed, hplace⟩ : ∃ placed, place 0 pageAlign size cell (.node cell .nil .nil) =
      some placed := place_single
    rcases hgood.stored.heapAllocWith _ hgood.root hgood.ordered hf (fun _ => rfl) with ⟨-, hy⟩ |
      ⟨_, _, _, hx, -⟩
    · rw [hplace] at hy
      cases hy
    · exact ⟨_, hx⟩
  obtain ⟨placed, t', hp, -, hcut, -, hgood', -⟩ := hgood.alloc hw (fun _ => rfl) hf hm
  have hspot : placed.allocAddr = nextHeader pageAlign c := by
    rw [hcut.fits.spot, hbase, nextHeader]
  have hnext : placed.base = nextHeader pageAlign c + headerSize + size := by
    rw [hcut.fits.base, hspot]
  have hstop := hcut.fits.stop
  have hfront := hcut.fits.front
  rw [hspot] at hgood' hp hfront
  refine ⟨r.2, by rw [hm, ← hp], by omega, by omega, t', hgood', fun x => ?_⟩
  have hleft : x ∈ spans t' ↔ placed.size ≠ 0 ∧ x = ⟨placed.base, placed.size⟩ := by
    refine (hcut.spans x).trans (or_iff_right ?_)
    rintro ⟨hin, hne⟩
    exact hne (((hspans x).mp hin).2.trans hcell.symm)
  have hsize' : placed.size = kheapEnd - placed.base := by omega
  rw [hleft, hsize', hnext]
  exact and_congr_left fun _ => by omega

theorem Bump.next (h : Bump s held c) (hw : NoWrap pageAlign size)
    (hroom : c + room pageAlign size ≤ kheapEnd) (hp : nextHeader pageAlign c + headerSize = p) :
    ∃ s' held', ikmalloc size pageAlign s = some (p, s') ∧ Bump s' held' (p + size) := by
  obtain ⟨s', hm, hb⟩ := h.alloc hw hroom
  rw [hp] at hm hb
  exact ⟨s', _, hm, hb⟩

theorem nextHeader_bounds (hw : NoWrap pageAlign size) (hc : c ≤ kheapEnd) :
    c ≤ nextHeader pageAlign c ∧ nextHeader pageAlign c + headerSize + size ≤ c + room pageAlign size := by
  have hend : kheapEnd + headerSize + (pageSize - 1) < wordSize := by decide
  simp only [nextHeader, room]
  cases pageAlign with
  | false =>
    simp only [Bool.false_eq_true, if_false]
    omega
  | true =>
    have hspec := alignHeader_spec c (by omega)
    simp only [if_true]
    omega

theorem Boot.init_bump (b : Boot) : Bump b.init.heap [] kheapStart := by
  refine ⟨le_rfl, by decide, _, b.init_good, fun x => ?_⟩
  rw [and_iff_right (by decide), show kheapEnd - kheapStart = kheapInitialSize by decide]
  exact List.mem_singleton

theorem Bump.alloc_full (h : Bump s held c) (hw : NoWrap pageAlign size)
    (hroom : kheapEnd < c + room pageAlign size) : ikmalloc size pageAlign s = some (0, s) := by
  obtain ⟨t, hgood, hspans⟩ := h.tree
  have hhigh := h.high
  refine hgood.alloc_none hw ?_
  rw [wanted_eq_room hgood hw]
  by_contra hne
  obtain ⟨best, hf⟩ := Option.ne_none_iff_exists'.mp hne
  obtain ⟨hin, hle⟩ := Avl.findBestFit_mem hf
  obtain ⟨hlt, he⟩ := (hspans best.span).mp (Avl.mem_spans_of_mem hin)
  have hsize : best.size = kheapEnd - c := congrArg Span.size he
  omega

theorem Bump.unique {held' : List Block} {c' : Nat} (h : Bump s held c) (h' : Bump s held' c') :
    c = c' := by
  have hhigh := h.high
  have hhigh' := h'.high
  obtain ⟨t, hgood, hspans⟩ := h.tree
  obtain ⟨t', hgood', hspans'⟩ := h'.tree
  have hroot : ptr t = ptr t' := hgood.root.symm.trans hgood'.root
  have hend : ∀ {t : Avl.AvlNode} {c : Nat}, c ≤ kheapEnd →
      (∀ x, x ∈ spans t ↔ c < kheapEnd ∧ x = ⟨c, kheapEnd - c⟩) → t = .nil → c = kheapEnd := by
    rintro t c hle hs rfl
    by_contra hne
    have hin := (hs ⟨c, kheapEnd - c⟩).mpr ⟨by omega, rfl⟩
    exact absurd hin (by simp)
  have hzero := ptr_eq_zero hgood.stored.store
  have hzero' := ptr_eq_zero hgood'.stored.store
  by_cases h0 : ptr t = 0
  · rw [hend hhigh hspans (hzero.mp h0), hend hhigh' hspans' (hzero'.mp (hroot ▸ h0))]
  · -- both trees begin with the cell at the root
    have hfirst : ∀ {t : Avl.AvlNode} {c : Nat}, ptr t ≠ 0 → Rep s.mem t →
        (∀ x, x ∈ spans t ↔ c < kheapEnd ∧ x = ⟨c, kheapEnd - c⟩) → (load s.mem (ptr t)).base = c := by
      intro t c hne hrep hs
      cases t with
      | nil => exact absurd rfl hne
      | node cell l r =>
        obtain ⟨-, hcell⟩ := (hs cell.span).mp (by simp)
        rw [ptr_node, hrep.1]
        exact congrArg Span.base hcell
    rw [← hfirst h0 hgood.stored.rep hspans, hroot]
    exact hfirst (hroot ▸ h0) hgood'.stored.rep hspans'

end

end Shigure.Vm.KHeap
