import Shigure.Avl.Search
import Shigure.Lib.Tiling
import Shigure.Vm.Heap

/-!
# Allocation and release, block by block

What `heap_alloc` and `heap_free` do to the free blocks of a well-formed heap:
`heap_alloc` cuts its block out of one free block or grows the area, and
`heap_free` puts a block back, merged with the free blocks that touch it.
-/

namespace Shigure.Vm

open Avl

section
variable {t t' root : AvlNode} {c : Cell} {base size lo hi node : Nat} {live : List Span}

-- ---------------------------------------------------------------------------
-- Assigning a block
-- ---------------------------------------------------------------------------

theorem setBlock_split (base size : Nat) (hn : (addrs t).Nodup) (hc : c ∈ inorder t) :
    ∃ L R, inorder t = L ++ c :: R ∧
      inorder (setBlock c.addr base size t) = L ++ { c with base := base, size := size } :: R := by
  obtain ⟨L, R, hLR⟩ := List.append_of_mem hc
  refine ⟨L, R, hLR, ?_⟩
  rw [addrs, hLR, List.map_append, List.map_cons] at hn
  have hout := (List.nodup_cons.mp (List.perm_middle.nodup_iff.mp hn)).1
  have hother : ∀ x ∈ L ++ R, x.addr ≠ c.addr := fun x hx he =>
    hout (by rw [← List.map_append, ← he]; exact List.mem_map_of_mem hx)
  have hsame : ∀ xs : List Cell, (∀ x ∈ xs, x.addr ≠ c.addr) →
      xs.map (fun x => if x.addr = c.addr then { x with base := base, size := size } else x) =
        xs := fun xs h => by
    conv_rhs => rw [← List.map_id xs]
    exact List.map_congr_left fun x hx => if_neg (h x hx)
  rw [setBlock, inorder_map, hLR, List.map_append, List.map_cons, if_pos rfl,
    hsame L fun x hx => hother x (List.mem_append_left R hx),
    hsame R fun x hx => hother x (List.mem_append_right L hx)]

theorem setBlock_addrs (addr base size : Nat) (t : AvlNode) : addrs (setBlock addr base size t) = addrs t := by
  rw [addrs, setBlock, inorder_map, List.map_map, addrs]
  refine List.map_congr_left fun c _ => ?_
  simp only [Function.comp]
  split <;> rfl

theorem setBlock_positive (addr : Nat) (h : Positive t) :
    Positive (setBlock addr base size t) := by
  induction t with
  | nil => trivial
  | node c l r ihl ihr =>
    refine ⟨?_, ihl h.2.1, ihr h.2.2⟩
    show 0 < Cell.height (if c.addr = addr then { c with base := base, size := size } else c)
    split <;> exact h.1

theorem setBlock_spans (base size : Nat) (ht : Tiling lo hi (spans t) live) (hn : (addrs t).Nodup)
    (hc : c ∈ inorder t) (hlo : c.base ≤ base) (hhi : base ≤ c.base + c.size) :
    Ordered (setBlock c.addr base size t) ∧
    ∀ x, x ∈ spans (setBlock c.addr base size t) ↔ (x ∈ spans t ∧ x ≠ c.span) ∨ x = ⟨base, size⟩ := by
  obtain ⟨L, R, hLR, hset⟩ := setBlock_split base size hn hc
  have hs : spans t = L.map Cell.span ++ c.span :: R.map Cell.span := by simp [spans, hLR]
  have hs' : spans (setBlock c.addr base size t) =
      L.map Cell.span ++ ⟨base, size⟩ :: R.map Cell.span := by simp [spans, hset, Cell.span]
  have hcs : c.span ∈ spans t := mem_spans_of_mem hc
  have hsort := ht.sorted
  rw [hs, sorted_middle] at hsort
  obtain ⟨hL, hR, hLc, hcR⟩ := hsort
  refine ⟨?_, fun x => ?_⟩
  · rw [Ordered, hs', sorted_middle]
    refine ⟨hL, hR, fun x hx => (hLc x hx).trans_le hlo, fun x hx => ?_⟩
    exact Nat.lt_of_le_of_lt hhi
      (ht.gap c.span hcs x (by rw [hs]; simp [hx]) (hcR x hx))
  · have hne : ∀ x, x ∈ L.map Cell.span ∨ x ∈ R.map Cell.span → x ≠ c.span := by
      rintro x (hx | hx) rfl
      · exact lt_irrefl _ (hLc _ hx)
      · exact lt_irrefl _ (hcR _ hx)
    rw [hs', hs]
    simp only [List.mem_append, List.mem_cons]
    have := hne x
    tauto

/-- Taking a block out of the tree when nothing of it is left: the deletion is
made with the base that the node has got by then. -/
theorem deleteUsed_spans (ht : Tiling lo hi (spans t) live) (hn : (addrs t).Nodup)
    (hc : c ∈ inorder t) (h : avlDelete (c.base + c.size) (setBlock c.addr (c.base + c.size) 0 t) =
      some t') :
    Ordered t' ∧ ∀ x, x ∈ spans t' ↔ x ∈ spans t ∧ x ≠ c.span := by
  obtain ⟨ho, hmem⟩ := setBlock_spans (c.base + c.size) 0 ht hn hc
    (Nat.le_add_right _ _) (le_refl _)
  refine ⟨avlDelete_ordered ho h, fun x => ?_⟩
  rw [avlDelete_spans ho h, mem_eraseKey, hmem]
  constructor
  · rintro ⟨hx | rfl, hb⟩
    · exact hx
    · exact absurd rfl hb
  · rintro ⟨hx, hne⟩
    refine ⟨.inl ⟨hx, hne⟩, fun hb => ?_⟩
    have hcs := ht.pos _ (mem_spans_of_mem hc)
    have hxp := ht.pos x hx
    rcases ht.cases hx (mem_spans_of_mem hc) with rfl | hlt | hlt
    · exact hne rfl
    · simp only [Cell.span, Span.stop] at *
      omega
    · simp only [Cell.span, Span.stop] at *
      omega

-- ---------------------------------------------------------------------------
-- The loops of `heap_free`
-- ---------------------------------------------------------------------------

theorem overlapFound_exists (h : overlapFound base size t = true) :
    ∃ c ∈ inorder t, Overlaps base size c := by
  induction t with
  | nil => cases h
  | node c l r ihl ihr =>
    simp only [overlapFound] at h
    split at h
    · exact ⟨c, by simp, ‹_›⟩
    · split at h
      · obtain ⟨x, hx, ho⟩ := ihl h
        exact ⟨x, by simp [hx], ho⟩
      · obtain ⟨x, hx, ho⟩ := ihr h
        exact ⟨x, by simp [hx], ho⟩

theorem not_overlaps (hc : c.base + c.size < wordSize) (hb : base + size < wordSize)
    (hpos : 0 < size) (hcpos : 0 < c.size) (hd : Span.Disjoint ⟨base, size⟩ c.span) :
    ¬ Overlaps base size c := by
  simp only [Overlaps, add32_eq hc, add32_eq hb]
  simp only [Span.Disjoint, Span.stop, Cell.span] at hd
  omega

/-- A range that is apart from the free blocks, of which no two touch and none
is empty. -/
structure Apart (base size : Nat) (t : AvlNode) : Prop where
  pos : 0 < size
  fits : base + size < wordSize
  sorted : Sorted Cell.base (inorder t)
  gap : ∀ c ∈ inorder t, ∀ d ∈ inorder t, c.base < d.base → c.base + c.size < d.base
  blocks : ∀ c ∈ inorder t, 0 < c.size ∧ c.base + c.size < wordSize ∧
    (base + size ≤ c.base ∨ c.base + c.size ≤ base)

section
variable {l r : AvlNode} {f g : Cell} {before behind : Option Cell}

theorem Apart.left (h : Apart base size (.node c l r)) : Apart base size l :=
  ⟨h.pos, h.fits, (sorted_middle.mp h.sorted).1,
    fun x hx y hy => h.gap x (by simp [hx]) y (by simp [hy]),
    fun x hx => h.blocks x (by simp [hx])⟩

theorem Apart.right (h : Apart base size (.node c l r)) : Apart base size r :=
  ⟨h.pos, h.fits, (sorted_middle.mp h.sorted).2.1,
    fun x hx y hy => h.gap x (by simp [hx]) y (by simp [hy]),
    fun x hx => h.blocks x (by simp [hx])⟩

theorem Apart.cases (h : Apart base size (.node c l r)) (hf : f ∈ inorder (.node c l r)) :
    f = c ∨ (f ∈ inorder l ∧ f.base + f.size < c.base) ∨
      (f ∈ inorder r ∧ c.base + c.size < f.base) := by
  obtain ⟨-, -, hl, hr⟩ := sorted_middle.mp h.sorted
  have hc : c ∈ inorder (.node c l r) := by simp
  rcases List.mem_append.mp hf with hfl | hfr
  · exact .inr (.inl ⟨hfl, h.gap f hf c hc (hl f hfl)⟩)
  · rcases List.mem_cons.mp hfr with rfl | hfr
    · exact .inl rfl
    · exact .inr (.inr ⟨hfr, h.gap c hc f hf (hr f hfr)⟩)

/-- Below a node the blocks that touch the range are on the side of the search
path. -/
theorem Apart.path (h : Apart base size (.node c l r)) (hf : f ∈ inorder (.node c l r))
    (ht : f.base + f.size = base ∨ base + size = f.base) :
    f = c ∨ f ∈ inorder (if base < c.base then l else r) := by
  have hc := h.blocks c (by simp)
  have hfb := h.blocks f hf
  have hpos := h.pos
  rcases h.cases hf with rfl | ⟨hl, hlt⟩ | ⟨hr, hlt⟩
  · exact .inl rfl
  · rw [if_pos (by omega)]
    exact .inr hl
  · rw [if_neg (by omega)]
    exact .inr hr

theorem Apart.eq_of_touch (h : Apart base size t) (hf : f ∈ inorder t) (hg : g ∈ inorder t)
    (he : f.base + f.size = g.base + g.size ∨ f.base = g.base) : f = g := by
  have hfp := (h.blocks f hf).1
  have hgp := (h.blocks g hg).1
  rcases Nat.lt_trichotomy f.base g.base with hlt | heq | hlt
  · have := h.gap f hf g hg hlt
    omega
  · exact h.sorted.eq_of_key hf hg heq
  · have := h.gap g hg f hf hlt
    omega

theorem noteNeighbor_spec (hfit : base + size < wordSize) (hcfit : c.base + c.size < wordSize)
    (hpos : 0 < size) (hcpos : 0 < c.size)
    (hbefore : before.isSome → c.base + c.size ≠ base)
    (hbehind : behind.isSome → base + size ≠ c.base) :
    (∀ f, (noteNeighbor base size c before behind).1 = some f ↔
      before = some f ∨ (f = c ∧ c.base + c.size = base)) ∧
    (∀ f, (noteNeighbor base size c before behind).2 = some f ↔
      behind = some f ∨ (f = c ∧ base + size = c.base)) := by
  simp only [noteNeighbor, add32_eq hcfit, add32_eq hfit]
  split
  · rename_i h
    obtain rfl : before = none := Option.not_isSome_iff_eq_none.mp fun hs => hbefore hs h
    refine ⟨fun f => by simp [h, eq_comm], fun f => ?_⟩
    exact ⟨.inl, fun h' => h'.resolve_right fun h'' => by omega⟩
  · rename_i h
    split
    · rename_i h'
      obtain rfl : behind = none := Option.not_isSome_iff_eq_none.mp fun hs => hbehind hs h'
      exact ⟨fun f => by simp [h], fun f => by simp [h', eq_comm]⟩
    · rename_i h'
      exact ⟨fun f => by simp [h], fun f => by simp [h']⟩

theorem found_iff {xs ys : List Cell} {p : Cell → Prop} (hc : c ∈ xs) (hd : ∀ f ∈ ys, f ∈ xs)
    (hpath : ∀ f ∈ xs, p f → f = c ∨ f ∈ ys) :
    ((f = c ∧ p c) ∨ (f ∈ ys ∧ p f)) ↔ f ∈ xs ∧ p f := by
  constructor
  · rintro (⟨rfl, hp⟩ | ⟨hf, hp⟩)
    · exact ⟨hc, hp⟩
    · exact ⟨hd f hf, hp⟩
  · rintro ⟨hf, hp⟩
    exact (hpath f hf hp).imp (fun he => ⟨he, he ▸ hp⟩) fun hf => ⟨hf, hp⟩

theorem findNeighbors_spec (before behind : Option Cell) (h : Apart base size t)
    (hbefore : before.isSome → ∀ f ∈ inorder t, f.base + f.size ≠ base)
    (hbehind : behind.isSome → ∀ f ∈ inorder t, base + size ≠ f.base) :
    (∀ f, (findNeighbors base size t before behind).1 = some f ↔
      before = some f ∨ (f ∈ inorder t ∧ f.base + f.size = base)) ∧
    (∀ f, (findNeighbors base size t before behind).2 = some f ↔
      behind = some f ∨ (f ∈ inorder t ∧ base + size = f.base)) := by
  induction t generalizing before behind with
  | nil => simp [findNeighbors]
  | node c l r ihl ihr =>
    have hc : c ∈ inorder (.node c l r) := by simp
    obtain ⟨hcpos, hcfit, -⟩ := h.blocks c hc
    obtain ⟨ha, hb⟩ := noteNeighbor_spec h.fits hcfit h.pos hcpos (fun hs => hbefore hs c hc)
      (fun hs => hbehind hs c hc)
    simp only [findNeighbors]
    generalize noteNeighbor base size c before behind = ab at ha hb
    obtain ⟨a, b⟩ := ab
    dsimp only at ha hb ⊢
    -- once found, a block that touches is the only one on its side
    have hleft : a.isSome → ∀ f ∈ inorder (.node c l r), f.base + f.size = base →
        f = c ∧ c.base + c.size = base := by
      intro hs f hf ht
      obtain ⟨g, rfl⟩ := Option.isSome_iff_exists.mp hs
      rcases (ha g).mp rfl with hg | ⟨rfl, hg⟩
      · exact absurd ht (hbefore (by simp [hg]) f hf)
      · exact ⟨h.eq_of_touch hf hc (.inl (ht.trans hg.symm)), hg⟩
    have hright : b.isSome → ∀ f ∈ inorder (.node c l r), base + size = f.base →
        f = c ∧ base + size = c.base := by
      intro hs f hf ht
      obtain ⟨g, rfl⟩ := Option.isSome_iff_exists.mp hs
      rcases (hb g).mp rfl with hg | ⟨rfl, hg⟩
      · exact absurd ht (hbehind (by simp [hg]) f hf)
      · exact ⟨h.eq_of_touch hf hc (.inr (ht.symm.trans hg)), hg⟩
    by_cases hboth : a.isSome ∧ b.isSome
    · rw [if_pos hboth]
      refine ⟨fun f => (ha f).trans (or_congr_right ?_), fun f => (hb f).trans (or_congr_right ?_)⟩
      · exact ⟨fun ⟨he, ht⟩ => ⟨he ▸ hc, he ▸ ht⟩, fun ⟨hf, ht⟩ => hleft hboth.1 f hf ht⟩
      · exact ⟨fun ⟨he, ht⟩ => ⟨he ▸ hc, he ▸ ht⟩, fun ⟨hf, ht⟩ => hright hboth.2 f hf ht⟩
    · rw [if_neg hboth]
      obtain ⟨-, -, hl, hr⟩ := sorted_middle.mp h.sorted
      split
      · rename_i hlt
        have hdown : ∀ f ∈ inorder l, f ∈ inorder (.node c l r) ∧ f ≠ c := fun f hf =>
          ⟨by simp [hf], fun he => lt_irrefl _ (he ▸ hl f hf)⟩
        obtain ⟨h1, h2⟩ := ihl _ _ h.left
          (fun hs f hf ht => (hdown f hf).2 (hleft hs f (hdown f hf).1 ht).1)
          (fun hs f hf ht => (hdown f hf).2 (hright hs f (hdown f hf).1 ht).1)
        have hpath := fun f hf ht => by simpa only [if_pos hlt] using h.path (f := f) hf ht
        refine ⟨fun f => ?_, fun f => ?_⟩
        · rw [h1, ha, or_assoc, found_iff hc (fun f hf => (hdown f hf).1)
            (p := fun f => f.base + f.size = base) fun f hf ht => hpath f hf (.inl ht)]
        · rw [h2, hb, or_assoc, found_iff hc (fun f hf => (hdown f hf).1)
            (p := fun f => base + size = f.base) fun f hf ht => hpath f hf (.inr ht)]
      · rename_i hlt
        have hdown : ∀ f ∈ inorder r, f ∈ inorder (.node c l r) ∧ f ≠ c := fun f hf =>
          ⟨by simp [hf], fun he => lt_irrefl _ (he ▸ hr f hf)⟩
        obtain ⟨h1, h2⟩ := ihr _ _ h.right
          (fun hs f hf ht => (hdown f hf).2 (hleft hs f (hdown f hf).1 ht).1)
          (fun hs f hf ht => (hdown f hf).2 (hright hs f (hdown f hf).1 ht).1)
        have hpath := fun f hf ht => by simpa only [if_neg hlt] using h.path (f := f) hf ht
        refine ⟨fun f => ?_, fun f => ?_⟩
        · rw [h1, ha, or_assoc, found_iff hc (fun f hf => (hdown f hf).1)
            (p := fun f => f.base + f.size = base) fun f hf ht => hpath f hf (.inl ht)]
        · rw [h2, hb, or_assoc, found_iff hc (fun f hf => (hdown f hf).1)
            (p := fun f => base + size = f.base) fun f hf ht => hpath f hf (.inr ht)]

end

-- ---------------------------------------------------------------------------
-- Release
-- ---------------------------------------------------------------------------

section
variable {s s' : HeapState} {b : Span} {left right : Option Cell} {root' : AvlNode}

theorem delete_spans (ho : Ordered t) (hx : sp ∈ spans t) (h : avlDelete sp.base t = some t') :
    Ordered t' ∧ ∀ x, x ∈ spans t' ↔ x ∈ spans t ∧ x ≠ sp := by
  refine ⟨avlDelete_ordered ho h, fun x => ?_⟩
  rw [avlDelete_spans ho h, mem_eraseKey]
  refine and_congr_right fun hxt => not_congr ⟨fun he => ?_, fun he => by rw [he]⟩
  exact Sorted.eq_of_key ho hxt hx he

theorem mergeLeft_spec (ho : Ordered t) (hl : ∀ c, left = some c → c.span ∈ spans t)
    (hfit : size + ((left.map Cell.size).getD 0) < wordSize)
    (h : mergeLeft left base size t = some (base', size', t')) :
    base' = (left.map Cell.base).getD base ∧ size' = size + (left.map Cell.size).getD 0 ∧
      Ordered t' ∧ (addrs t').Sublist (addrs t) ∧
      ∀ x, x ∈ spans t' ↔ x ∈ spans t ∧ left.map Cell.span ≠ some x := by
  cases left with
  | none =>
    simp only [mergeLeft, Option.some.injEq, Prod.mk.injEq] at h
    obtain ⟨rfl, rfl, rfl⟩ := h
    simp [ho]
  | some c =>
    simp only [mergeLeft, bind, Option.bind_eq_some_iff, Option.some.injEq, Prod.mk.injEq] at h
    obtain ⟨u, hu, rfl, rfl, rfl⟩ := h
    obtain ⟨hou, hmem⟩ := delete_spans ho (hl c rfl) hu
    refine ⟨rfl, add32_eq hfit, hou, avlDelete_addrs hu, fun x => ?_⟩
    rw [hmem, Option.map_some, ne_eq, ne_eq, Option.some.injEq, eq_comm]

theorem mergeRight_spec (ho : Ordered t) (hr : ∀ c, right = some c → c.span ∈ spans t)
    (hfit : size + ((right.map Cell.size).getD 0) < wordSize)
    (h : mergeRight right size t = some (size', t')) :
    size' = size + (right.map Cell.size).getD 0 ∧ Ordered t' ∧ (addrs t').Sublist (addrs t) ∧
      ∀ x, x ∈ spans t' ↔ x ∈ spans t ∧ right.map Cell.span ≠ some x := by
  cases right with
  | none =>
    simp only [mergeRight, Option.some.injEq, Prod.mk.injEq] at h
    obtain ⟨rfl, rfl⟩ := h
    simp [ho]
  | some c =>
    simp only [mergeRight, bind, Option.bind_eq_some_iff, Option.some.injEq, Prod.mk.injEq] at h
    obtain ⟨u, hu, rfl, rfl⟩ := h
    obtain ⟨hou, hmem⟩ := delete_spans ho (hr c rfl) hu
    refine ⟨add32_eq hfit, hou, avlDelete_addrs hu, fun x => ?_⟩
    rw [hmem, Option.map_some, ne_eq, ne_eq, Option.some.injEq, eq_comm]

theorem apart_of_live (ht : Tiling lo hi (spans t) live) (hhi : hi < wordSize)
    (hb : ⟨base, size⟩ ∈ live) (hpos : 0 < size) : Apart base size t where
  pos := hpos
  fits := (ht.liveIn _ hb).2.trans_lt hhi
  sorted := by
    have hs := ht.sorted
    rw [Sorted, spans, List.pairwise_map] at hs
    exact hs
  gap c hc d hd := ht.gap _ (mem_spans_of_mem hc) _ (mem_spans_of_mem hd)
  blocks c hc := by
    have hcs := mem_spans_of_mem hc
    have h1 := ht.pos _ hcs
    have h2 := ht.freeIn _ hcs
    have h3 := ht.apart _ hb _ hcs
    simp only [Span.Within, Span.Disjoint, Span.stop, Cell.span] at *
    omega

theorem overlapFound_live (ht : Tiling lo hi (spans t) live) (hhi : hi < wordSize)
    (hb : ⟨base, size⟩ ∈ live) (hpos : 0 < size) : overlapFound base size t = false := by
  rw [← Bool.not_eq_true]
  intro h
  obtain ⟨c, hc, ho⟩ := overlapFound_exists h
  have ha := apart_of_live ht hhi hb hpos
  obtain ⟨h1, h2, -⟩ := ha.blocks c hc
  exact not_overlaps h2 ha.fits hpos h1 (ht.apart _ hb _ (mem_spans_of_mem hc)) ho

theorem findNeighbors_touching (ht : Tiling lo hi (spans t) live) (hhi : hi < wordSize)
    (hb : ⟨base, size⟩ ∈ live) (hpos : 0 < size) :
    Tiling.Touching (spans t) ⟨base, size⟩ ((findNeighbors base size t none none).1.map Cell.span)
      ((findNeighbors base size t none none).2.map Cell.span) := by
  obtain ⟨h1, h2⟩ := findNeighbors_spec none none
    (apart_of_live ht hhi hb hpos) (by simp) (by simp)
  refine ⟨fun f => ?_, fun f => ?_⟩
  · simp only [Option.map_eq_some_iff, h1, spans, List.mem_map, reduceCtorEq, false_or, Span.stop]
    constructor
    · rintro ⟨c, ⟨hc, he⟩, rfl⟩
      exact ⟨⟨c, hc, rfl⟩, he⟩
    · rintro ⟨⟨c, hc, rfl⟩, he⟩
      exact ⟨c, ⟨hc, he⟩, rfl⟩
  · simp only [Option.map_eq_some_iff, h2, spans, List.mem_map, reduceCtorEq, false_or, Span.stop]
    constructor
    · rintro ⟨c, ⟨hc, he⟩, rfl⟩
      exact ⟨⟨c, hc, rfl⟩, he.symm⟩
    · rintro ⟨⟨c, hc, rfl⟩, he⟩
      exact ⟨c, ⟨hc, he.symm⟩, rfl⟩

/-- Both merges together: the neighbours are gone and what is to be inserted is
the block with them. -/
theorem merge_spec (ht : Tiling lo hi (spans t) live) (hhi : hi < wordSize)
    (hb : ⟨base, size⟩ ∈ live) (hpos : 0 < size)
    (h1 : mergeLeft (findNeighbors base size t none none).1 base size t = some (base', size', t'))
    (h2 : mergeRight (findNeighbors base size t none none).2 size' t' = some (size'', root')) :
    ∃ L R, Tiling.Touching (spans t) ⟨base, size⟩ L R ∧
      ⟨base', size''⟩ = Tiling.merged L ⟨base, size⟩ R ∧ Ordered root' ∧
      (addrs root').Sublist (addrs t) ∧
      ∀ x, x ∈ spans root' ↔ x ∈ spans t ∧ L ≠ some x ∧ R ≠ some x := by
  have htouch := findNeighbors_touching ht hhi hb hpos
  have hin : (Tiling.merged ((findNeighbors base size t none none).1.map Cell.span) ⟨base, size⟩
      ((findNeighbors base size t none none).2.map Cell.span)).stop < wordSize := by
    rcases htouch.merged.2 with ⟨-, hm⟩ | ⟨f, hf, -, -, hm⟩ <;> rw [hm]
    · exact (ht.liveIn _ hb).2.trans_lt hhi
    · exact (ht.freeIn f hf).2.trans_lt hhi
  generalize (findNeighbors base size t none none).1 = left at *
  generalize (findNeighbors base size t none none).2 = right at *
  have hsize : ∀ o : Option Cell, (o.map Cell.span).map Span.size = o.map Cell.size := fun o => by
    cases o <;> rfl
  have hbase : ∀ o : Option Cell, (o.map Cell.span).map Span.base = o.map Cell.base := fun o => by
    cases o <;> rfl
  simp only [Tiling.merged, Span.stop, hsize, hbase] at hin
  obtain ⟨rfl, rfl, ho1, ha1, hs1⟩ := mergeLeft_spec ht.sorted
    (fun c hc => ((htouch.left c.span).mp (by rw [hc, Option.map_some])).1) (by omega) h1
  obtain ⟨rfl, ho2, ha2, hs2⟩ := mergeRight_spec ho1 (fun c hc => by
    obtain ⟨hr, hre⟩ := (htouch.right c.span).mp (by rw [hc, Option.map_some])
    refine (hs1 _).mpr ⟨hr, fun hl => ?_⟩
    -- a block cannot both end and begin at the range
    have := ((htouch.left c.span).mp hl).2
    have := ht.pos _ hr
    simp only [Span.stop] at *
    omega) (by omega) h2
  refine ⟨_, _, htouch, ?_, ho2, ha2.trans ha1, fun x => by rw [hs2, hs1, and_assoc]⟩
  simp only [Tiling.merged, hsize, hbase]
  congr 1
  omega

theorem insertMerged_spec {L R : Option Span} (ht : Tiling lo hi (spans t) live) (hb : b ∈ live)
    (hpos : 0 < b.size) (htouch : Tiling.Touching (spans t) b L R) (ho : Ordered t')
    (hs : ∀ x, x ∈ spans t' ↔ x ∈ spans t ∧ L ≠ some x ∧ R ≠ some x)
    (h : avlInsert node (Tiling.merged L b R).base (Tiling.merged L b R).size t' = some root') :
    Ordered root' ∧ ∀ x, x ∈ spans root' ↔ x = Tiling.merged L b R ∨
      (x ∈ spans t ∧ L ≠ some x ∧ R ≠ some x) := by
  have hmpos : b.size ≤ (Tiling.merged L b R).size := by simp only [Tiling.merged]; omega
  refine ⟨avlInsert_ordered ho h, fun x => ?_⟩
  rw [avlInsert_spans (by omega) ho h, mem_insertKey_absent, hs]
  intro y hy (hbase : y.base = (Tiling.merged L b R).base)
  obtain ⟨hy, hl, hr⟩ := (hs y).mp hy
  have := ht.pos y hy
  rcases Tiling.Touching.gap ht hb hpos htouch hy hl hr with hg | hg <;>
    simp only [Span.stop] at hg <;> omega

/-- `heap_free` of a live block puts it back, merged with what touches it. -/
theorem heapFree_spec (ht : Tiling s.heap.startAddr s.heap.endAddr (spans s.heap.root) live)
    (hhi : s.heap.endAddr < wordSize) (hb : ⟨base, size⟩ ∈ live) (hpos : 0 < size)
    (h : heapFree node base size s = some (message, s')) :
    message = none ∧ ∃ root L R, s' = s.setRoot root ∧
      Tiling.Touching (spans s.heap.root) ⟨base, size⟩ L R ∧ Ordered root ∧
      (∀ x, x ∈ spans root ↔ x = Tiling.merged L ⟨base, size⟩ R ∨
        (x ∈ spans s.heap.root ∧ L ≠ some x ∧ R ≠ some x)) ∧
      ((addrs s.heap.root).Nodup → node ∉ addrs s.heap.root → (addrs root).Nodup) := by
  have hin := ht.liveIn _ hb
  simp only [Span.Within, Span.stop] at hin
  have hvalid : ¬ (size = 0 ∨ base < s.heap.startAddr ∨ add32 base size > s.heap.endAddr) := by
    rw [add32_eq (by omega)]
    omega
  rw [heapFree, if_neg hvalid, overlapFound_live ht hhi hb hpos, if_neg Bool.false_ne_true] at h
  simp only [bind, Option.bind_eq_some_iff, Option.some.injEq, Prod.mk.injEq] at h
  obtain ⟨⟨base', size', t1⟩, h1, ⟨size'', t2⟩, h2, root, h3, rfl, rfl⟩ := h
  obtain ⟨L, R, htouch, hm, ho, ha, hs⟩ := merge_spec ht hhi hb hpos h1 h2
  dsimp only at h3
  have hm' : base' = (Tiling.merged L ⟨base, size⟩ R).base ∧
      size'' = (Tiling.merged L ⟨base, size⟩ R).size := by rw [← hm]; exact ⟨rfl, rfl⟩
  rw [hm'.1, hm'.2] at h3
  obtain ⟨ho', hs'⟩ := insertMerged_spec ht hb hpos htouch ho hs h3
  refine ⟨rfl, root, L, R, rfl, htouch, ho', hs', fun hn hnode => ?_⟩
  exact avlInsert_nodup (ha.nodup hn) (fun hmem => hnode (ha.subset hmem)) h3

end

-- ---------------------------------------------------------------------------
-- Allocation
-- ---------------------------------------------------------------------------

section
variable {pageAlign : Bool} {placed : Placed} {best : Cell}

theorem align_page (base : Nat) (h : base + (pageSize - 1) < wordSize) :
    align base pageSize = (base + 4095) / 4096 * 4096 := align_eq (k := 12) (by decide) h

theorem alignHeader_spec (base : Nat) (h : base + headerSize + (pageSize - 1) < wordSize) :
    base ≤ alignHeader base ∧ alignHeader base + 1 ≤ base + pageSize ∧
      pageSize ∣ alignHeader base + headerSize := by
  have hadd : base + headerSize < wordSize := by omega
  have hal : align (add32 base headerSize) pageSize =
      (base + headerSize + 4095) / 4096 * 4096 := by
    rw [add32_eq hadd, align_page _ h]
  simp only [alignHeader, hal]
  simp only [pageSize, headerSize, wordSize] at *
  rw [sub32_eq (by omega) (by simp only [wordSize]; omega)]
  refine ⟨by omega, by omega, ?_⟩
  rw [Nat.sub_add_cancel (by omega)]
  exact Nat.dvd_mul_left _ _

/-- The block is put into the best fit, at its front or as far behind it as the
alignment asks; the tree still has the same blocks. -/
structure Fits (pageAlign : Bool) (size : Nat) (best : Cell) (root : AvlNode) (placed : Placed) :
    Prop where
  spot : placed.allocAddr = if pageAlign then alignHeader best.base else best.base
  front : best.base ≤ placed.allocAddr
  aligned : pageAlign = true → pageSize ∣ placed.allocAddr + headerSize
  base : placed.base = placed.allocAddr + headerSize + size
  stop : placed.base + placed.size = best.base + best.size
  spans : spans placed.root = spans root
  addrs : addrs placed.root = addrs root

/-- The fragment before an aligned block has the base of the block it is cut from, so
its insertion changes no block. -/
theorem insertFragment_same (offset : Nat) (ho : Ordered root) (hc : best ∈ inorder root)
    (h : insertFragment node best.base offset root = some t) :
    Avl.spans t = Avl.spans root ∧ Avl.addrs t = Avl.addrs root := by
  rw [insertFragment] at h
  split at h
  · rename_i hoff
    rw [avlInsert, if_neg (by omega)] at h
    exact insert_go_present ho ⟨best.span, mem_spans_of_mem hc, rfl⟩ h
  · cases h
    exact ⟨rfl, rfl⟩

theorem place_spec (ho : Ordered root) (hc : best ∈ inorder root)
    (hfit : best.base + best.size < wordSize)
    (hsize : size + headerSize + (if pageAlign then pageSize - 1 else 0) ≤ best.size)
    (h : place node pageAlign size best root = some placed) :
    Fits pageAlign size best root placed := by
  simp only [place] at h
  split at h
  · rename_i hal
    obtain ⟨hp, hmis⟩ := hal
    rw [if_pos hp] at hsize
    obtain ⟨ha1, ha2, ha3⟩ := alignHeader_spec best.base (by omega)
    have hpage : pageSize = 4096 := rfl
    have hhead : headerSize = 8 := rfl
    have hword : wordSize = 4294967296 := rfl
    simp only [bind, Option.bind_eq_some_iff, Option.some.injEq] at h
    obtain ⟨r, hr, rfl⟩ := h
    rw [sub32_eq ha1 (by omega), add32_eq (a := alignHeader best.base) (by omega),
      add32_eq (by omega), add32_eq (a := alignHeader best.base - best.base) (by omega),
      add32_eq (by omega), sub32_eq (by omega) (by omega)]
    have hsame := insertFragment_same _ ho hc hr
    exact ⟨by rw [if_pos hp], ha1, fun _ => ha3, rfl, by dsimp only; omega, hsame.1, hsame.2⟩
  · rename_i hal
    obtain rfl := Option.some.inj h
    have hpage : pageSize = 4096 := rfl
    have hhead : headerSize = 8 := rfl
    have hword : wordSize = 4294967296 := rfl
    have hsize' : size + headerSize ≤ best.size := by omega
    rw [add32_eq (a := size) (by omega), add32_eq (by omega), sub32_eq hsize' (by omega)]
    have hmod : pageAlign = true → 4096 ∣ best.base + 8 := fun hp => by
      simp only [hp, true_and, not_not, pageSize, headerSize] at hal
      omega
    refine ⟨?_, le_refl _, hmod, by dsimp only; omega, by dsimp only; omega, rfl, rfl⟩
    cases pageAlign with
    | false => rfl
    | true =>
      rw [if_pos rfl] at hsize ⊢
      obtain ⟨h1, h2, h3⟩ := alignHeader_spec best.base (by omega)
      have hal := hmod rfl
      have h3 : 4096 ∣ alignHeader best.base + 8 := h3
      dsimp only
      omega

theorem shrink_spec (ht : Tiling lo hi (spans root) live) (hn : (addrs root).Nodup)
    (hc : best ∈ inorder root) (hf : Fits pageAlign size best root placed)
    (h : removeUsed placed.base placed.size
      (setBlock best.addr placed.base placed.size placed.root) = some root') :
    Ordered root' ∧ (addrs root').Sublist (addrs root) ∧
      ∀ x, x ∈ spans root' ↔ (x ∈ spans root ∧ x ≠ best.span) ∨
        (placed.size ≠ 0 ∧ x = ⟨placed.base, placed.size⟩) := by
  obtain ⟨c, hc', haddr, hspan⟩ := exists_same_cell hf.spans hf.addrs hc
  have hspan' : c.base = best.base ∧ c.size = best.size := by
    simpa [Cell.span] using hspan
  have hbase := hf.base
  have hstop := hf.stop
  have hfront := hf.front
  rw [← hf.spans] at ht ⊢
  rw [← hf.addrs] at hn ⊢
  rw [← hspan]
  rw [← haddr] at h
  rw [removeUsed] at h
  split at h
  · rename_i hz
    have hend : placed.base = c.base + c.size := by omega
    rw [hend, hz] at h
    obtain ⟨ho, hs⟩ := deleteUsed_spans ht hn hc' h
    refine ⟨ho, ?_, fun x => ?_⟩
    · have := avlDelete_addrs h
      rwa [setBlock_addrs] at this
    · rw [hs]
      simp [hz]
  · rename_i hz
    obtain rfl := Option.some.inj h
    obtain ⟨ho, hs⟩ := setBlock_spans placed.base placed.size ht hn hc'
      (by omega) (by omega)
    exact ⟨ho, by rw [setBlock_addrs], fun x => by rw [hs]; simp [hz]⟩

/-- No addition of `heap_alloc` wraps: neither when it computes the size to
search for nor, if nothing fits, the new end of the area. -/
def NoWrap (pageAlign : Bool) (size : Nat) (s : HeapState) : Prop :=
  size + headerSize + (if pageAlign then pageSize - 1 else 0) < wordSize ∧
  (findBestFit (wanted pageAlign size) s.heap.root = none →
    (if pageAlign then (s.heap.endAddr + headerSize + (pageSize - 1)) / pageSize * pageSize
      else s.heap.endAddr + headerSize) + size + (pageSize - 1) < wordSize)

instance : Decidable (NoWrap pageAlign size s) := by
  unfold NoWrap
  infer_instance

theorem NoWrap.wanted_eq (h : NoWrap pageAlign size s) :
    wanted pageAlign size = size + headerSize + (if pageAlign then pageSize - 1 else 0) := by
  have h1 := h.1
  cases pageAlign with
  | false =>
    rw [if_neg Bool.false_ne_true] at h1 ⊢
    exact add32_eq h1
  | true =>
    rw [if_pos rfl] at h1 ⊢
    rw [wanted, if_pos rfl, add32_eq (a := size) (by omega), add32_eq (by omega)]
    omega

structure Extended (pageAlign : Bool) (size : Nat) (s s' : HeapState) (a : Nat) : Prop where
  missing : findBestFit (wanted pageAlign size) s.heap.root = none
  spot : a = if pageAlign then alignHeader s.heap.endAddr else s.heap.endAddr
  front : s.heap.endAddr ≤ a
  aligned : pageAlign = true → pageSize ∣ a + headerSize
  limit : s'.heap.endAddr ≤ add32 s.heap.startAddr s.heap.maxSize
  stop : a + headerSize + size ≤ s'.heap.endAddr
  rounded : s'.heap.endAddr = (a + headerSize + size + (pageSize - 1)) / pageSize * pageSize
  high : s'.heap.endAddr < wordSize
  startAddr : s'.heap.startAddr = s.heap.startAddr
  maxSize : s'.heap.maxSize = s.heap.maxSize
  root : s'.heap.root = s.heap.root
  mem : s'.mem = (s.storeHeader a size).mem

structure Cut (pageAlign : Bool) (size : Nat) (s s' : HeapState) (best : Cell) (placed : Placed) :
    Prop where
  fits : Fits pageAlign size best s.heap.root placed
  found : findBestFit (wanted pageAlign size) s.heap.root = some best
  ordered : Ordered s'.heap.root
  addrs : (addrs s'.heap.root).Sublist (addrs s.heap.root)
  spans : ∀ x, x ∈ spans s'.heap.root ↔ (x ∈ spans s.heap.root ∧ x ≠ best.span) ∨
    (placed.size ≠ 0 ∧ x = ⟨placed.base, placed.size⟩)
  startAddr : s'.heap.startAddr = s.heap.startAddr
  endAddr : s'.heap.endAddr = s.heap.endAddr
  maxSize : s'.heap.maxSize = s.heap.maxSize
  mem : s'.mem = (s.storeHeader placed.allocAddr size).mem

theorem expandHeap_spec (size : Nat) (hlo : s.heap.startAddr ≤ s.heap.endAddr)
    (hfit : s.heap.endAddr + size + (pageSize - 1) < wordSize) (hpos : 0 < size) :
    expandHeap size s = (0, s) ∨
    ((expandHeap size s).1 ≠ 0 ∧ (expandHeap size s).2.mem = s.mem ∧
      (s.heap.endAddr + size + (pageSize - 1)) / pageSize * pageSize ≤
        add32 s.heap.startAddr s.heap.maxSize ∧
      (expandHeap size s).2.heap = { s.heap with
        endAddr := (s.heap.endAddr + size + (pageSize - 1)) / pageSize * pageSize }) := by
  have hal : align (add32 s.heap.endAddr size) pageSize =
      (s.heap.endAddr + size + (pageSize - 1)) / pageSize * pageSize := by
    rw [add32_eq (by omega), align_page _ hfit]
    rfl
  simp only [expandHeap, hal]
  split
  · exact .inl rfl
  · rename_i hlimit
    refine .inr ⟨?_, rfl, Nat.not_lt.mp hlimit, rfl⟩
    simp only [pageSize, wordSize] at *
    rw [sub32_eq (by omega) (by simp only [wordSize]; omega)]
    omega

theorem extend_spec (hlo : s.heap.startAddr ≤ s.heap.endAddr)
    (hmissing : findBestFit (wanted pageAlign size) s.heap.root = none)
    (hspot : a = if pageAlign then alignHeader s.heap.endAddr else s.heap.endAddr)
    (hfront : s.heap.endAddr ≤ a) (haligned : pageAlign = true → pageSize ∣ a + headerSize)
    (hfit : a + headerSize + size + (pageSize - 1) < wordSize)
    (htotal : (expandHeap (add32 (add32 (sub32 a s.heap.endAddr) headerSize) size) s).1 = total)
    (hs' : (expandHeap (add32 (add32 (sub32 a s.heap.endAddr) headerSize) size) s).2 = u) :
    (total = 0 ∧ u = s) ∨ (total ≠ 0 ∧ Extended pageAlign size s (u.storeHeader a size) a) := by
  have hhead : headerSize = 8 := rfl
  rw [sub32_eq hfront (by omega), add32_eq (a := a - s.heap.endAddr) (by omega),
    add32_eq (by omega)] at htotal hs'
  rcases expandHeap_spec (a - s.heap.endAddr + headerSize + size) hlo (by omega)
    (by omega) with h | ⟨h1, h2, h3, h4⟩
  · rw [h] at htotal hs'
    exact .inl ⟨htotal.symm, hs'.symm⟩
  · rw [htotal] at h1
    rw [hs'] at h2 h4
    rw [show s.heap.endAddr + (a - s.heap.endAddr + headerSize + size) = a + headerSize + size by
      omega] at h3 h4
    have hend : (u.storeHeader a size).heap.endAddr =
        (a + headerSize + size + (pageSize - 1)) / pageSize * pageSize := by
      simp only [HeapState.storeHeader, h4]
    refine .inr ⟨h1, hmissing, hspot, hfront, haligned, hend ▸ h3, ?_, hend, ?_,
      by simp [HeapState.storeHeader, h4], by simp [HeapState.storeHeader, h4],
      by simp [HeapState.storeHeader, h4], by simp [HeapState.storeHeader, h2]⟩
    · rw [hend]
      simp only [pageSize]
      omega
    · rw [hend]
      simp only [pageSize, wordSize] at *
      omega

theorem heapAlloc_found
    (ht : Tiling s.heap.startAddr s.heap.endAddr (Avl.spans s.heap.root) live)
    (hn : (Avl.addrs s.heap.root).Nodup) (hhi : s.heap.endAddr < wordSize)
    (hw : NoWrap pageAlign size s)
    (hbest : findBestFit (wanted pageAlign size) s.heap.root = some best)
    (h : heapAlloc node pageAlign size s = some (p, s')) :
    ∃ placed, p = placed.allocAddr + headerSize ∧ Cut pageAlign size s s' best placed := by
  obtain ⟨hc, hsize⟩ := findBestFit_mem hbest
  have hin := ht.freeIn _ (mem_spans_of_mem hc)
  simp only [Cell.span, Span.Within, Span.stop] at hin
  rw [heapAlloc, hbest] at h
  simp only [bind, Option.bind_eq_some_iff, Option.some.injEq, Prod.mk.injEq] at h
  obtain ⟨placed, hp, root, hr, rfl, rfl⟩ := h
  rw [hw.wanted_eq] at hsize
  have hf := place_spec ht.sorted hc (by omega) hsize hp
  obtain ⟨ho, ha, hs⟩ := shrink_spec ht hn hc hf hr
  have hbase := hf.base
  have hstop := hf.stop
  refine ⟨placed, add32_eq (by omega), ?_⟩
  exact ⟨hf, hbest, ho, ha, hs, rfl, rfl, rfl, rfl⟩

/-- All that a call of `heap_alloc` can do. -/
theorem heapAlloc_cases
    (ht : Tiling s.heap.startAddr s.heap.endAddr (Avl.spans s.heap.root) live)
    (hn : (Avl.addrs s.heap.root).Nodup) (hlo : s.heap.startAddr ≤ s.heap.endAddr)
    (hhi : s.heap.endAddr < wordSize) (hw : NoWrap pageAlign size s)
    (h : heapAlloc node pageAlign size s = some (p, s')) :
    (p = 0 ∧ s' = s) ∨ (∃ a, p = a + headerSize ∧ Extended pageAlign size s s' a) ∨
      ∃ best placed, p = placed.allocAddr + headerSize ∧ Cut pageAlign size s s' best placed := by
  cases hbest : findBestFit (wanted pageAlign size) s.heap.root with
  | some best =>
    obtain ⟨placed, hp, hx⟩ := heapAlloc_found ht hn hhi hw hbest h
    exact .inr (.inr ⟨best, placed, hp, hx⟩)
  | none =>
    rw [heapAlloc, hbest] at h
    have htop := hw.2 hbest
    have hhead : headerSize = 8 := rfl
    have hpage : pageSize = 4096 := rfl
    have hspot : ∀ a, a = (if pageAlign then alignHeader s.heap.endAddr else s.heap.endAddr) →
        s.heap.endAddr ≤ a ∧ (pageAlign = true → pageSize ∣ a + headerSize) ∧
          a + headerSize + size + (pageSize - 1) < wordSize := by
      rintro a rfl
      cases pageAlign with
      | false =>
        rw [if_neg Bool.false_ne_true] at htop ⊢
        exact ⟨le_refl _, fun h => absurd h Bool.false_ne_true, htop⟩
      | true =>
        rw [if_pos rfl] at htop ⊢
        have htop : (s.heap.endAddr + 8 + 4095) / 4096 * 4096 + size + 4095 < wordSize := htop
        obtain ⟨h1, h2, h3⟩ := alignHeader_spec s.heap.endAddr (by omega)
        refine ⟨h1, fun _ => h3, ?_⟩
        have h3 : 4096 ∣ alignHeader s.heap.endAddr + 8 := h3
        omega
    obtain ⟨a, ha⟩ : ∃ a, a = if pageAlign then alignHeader s.heap.endAddr else s.heap.endAddr :=
      ⟨_, rfl⟩
    obtain ⟨h1, h2, h3⟩ := hspot a ha
    rw [← ha] at h
    dsimp only at h
    rcases extend_spec hlo hbest ha h1 h2 h3 rfl rfl with ⟨ht0, hu⟩ | ⟨ht0, hu⟩
    · rw [if_pos ht0, hu] at h
      cases h
      exact .inl ⟨rfl, rfl⟩
    · rw [if_neg ht0] at h
      cases h
      exact .inr (.inl ⟨a, add32_eq (by omega), hu⟩)

end

end

end Shigure.Vm
