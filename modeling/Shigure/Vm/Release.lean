import Shigure.Vm.HeapLaws

/-!
# Release, for every range

What `heap_free` does with a range that nobody need have been handed: it turns
down an empty range, one that leaves the area and one that overlaps a free
block, and it puts every other range back. Both loops follow one path from the
root, so the point is that a path misses neither an overlap nor a neighbour.
-/

namespace Shigure.Vm

open Avl

section
variable {t t' root : AvlNode} {c f : Cell} {base size lo hi node : Nat}

-- ---------------------------------------------------------------------------
-- Overlaps
-- ---------------------------------------------------------------------------

theorem overlaps_of_meet (hc : c.base + c.size < wordSize) (hb : base + size < wordSize)
    (hd : ¬ Span.Disjoint ⟨base, size⟩ c.span) : Overlaps base size c := by
  simp only [Overlaps, add32_eq hc, add32_eq hb]
  simp only [Span.Disjoint, Span.stop, Cell.span] at hd
  omega

/-- Blocks on the other side of a node that the range is apart from are further
away than the node. -/
theorem overlapFound_of_meet (hfit : base + size < wordSize) (hs : Sorted Cell.base (inorder t))
    (hgap : ∀ c ∈ inorder t, ∀ d ∈ inorder t, c.base < d.base → c.base + c.size < d.base)
    (hword : ∀ c ∈ inorder t, 0 < c.size ∧ c.base + c.size < wordSize)
    (hf : f ∈ inorder t) (hd : ¬ Span.Disjoint ⟨base, size⟩ f.span) :
    overlapFound base size t = true := by
  induction t with
  | nil => cases hf
  | node c l r ihl ihr =>
    have hc : c ∈ inorder (.node c l r) := by simp
    have hl : ∀ x ∈ inorder l, x ∈ inorder (.node c l r) := fun x hx => by simp [hx]
    have hr : ∀ x ∈ inorder r, x ∈ inorder (.node c l r) := fun x hx => by simp [hx]
    obtain ⟨hsl, hsr, hlc, hcr⟩ := sorted_middle.mp hs
    rw [overlapFound]
    split
    · rfl
    · rename_i hno
      have hapart : Span.Disjoint ⟨base, size⟩ c.span := by
        by_contra hmeet
        exact hno (overlaps_of_meet (hword c hc).2 hfit hmeet)
      have hside : f ∈ inorder (if base < c.base then l else r) := by
        rcases List.mem_append.mp hf with hfl | hfr
        · have hbefore := hgap f (hl f hfl) c hc (hlc f hfl)
          rw [if_pos]
          · exact hfl
          · simp only [Span.Disjoint, Span.stop, Cell.span] at hd
            omega
        · rcases List.mem_cons.mp hfr with rfl | hfr
          · exact absurd hapart hd
          · have hbehind := hgap c hc f (hr f hfr) (hcr f hfr)
            rw [if_neg]
            · exact hfr
            · have := hword c hc
              simp only [Span.Disjoint, Span.stop, Cell.span] at hd hapart
              omega
      split
      · rename_i hlt
        rw [if_pos hlt] at hside
        exact ihl hsl (fun x hx y hy => hgap x (hl x hx) y (hl y hy))
          (fun x hx => hword x (hl x hx)) hside
      · rename_i hlt
        rw [if_neg hlt] at hside
        exact ihr hsr (fun x hx y hy => hgap x (hr x hx) y (hr y hy))
          (fun x hx => hword x (hr x hx)) hside

theorem overlapFound_iff (ht : Tiling lo hi (spans t) []) (hhi : hi < wordSize) (hpos : 0 < size)
    (hfit : base + size < wordSize) :
    overlapFound base size t = true ↔ ∃ x ∈ spans t, ¬ Span.Disjoint ⟨base, size⟩ x := by
  have hword : ∀ c ∈ inorder t, 0 < c.size ∧ c.base + c.size < wordSize := fun c hc =>
    ⟨ht.pos _ (mem_spans_of_mem hc), (ht.freeIn _ (mem_spans_of_mem hc)).2.trans_lt hhi⟩
  have hsort : Sorted Cell.base (inorder t) := by
    have hs := ht.sorted
    rw [Sorted, spans, List.pairwise_map] at hs
    exact hs
  constructor
  · intro h
    obtain ⟨c, hc, ho⟩ := overlapFound_exists h
    refine ⟨c.span, mem_spans_of_mem hc, fun hd => ?_⟩
    exact not_overlaps (hword c hc).2 hfit hpos (hword c hc).1 hd ho
  · rintro ⟨x, hx, hd⟩
    obtain ⟨f, hf, rfl⟩ := List.mem_map.mp hx
    refine overlapFound_of_meet hfit hsort (fun c hc d hd => ?_) hword hf hd
    exact ht.gap _ (mem_spans_of_mem hc) _ (mem_spans_of_mem hd)

-- ---------------------------------------------------------------------------
-- What becomes free
-- ---------------------------------------------------------------------------

def IsFree (t : AvlNode) (x : Nat) : Prop := ∃ f ∈ spans t, x ∈ f

def Refused (heap : Heap) (base size : Nat) : Prop :=
  size = 0 ∨ base < heap.startAddr ∨ heap.endAddr < base + size ∨
    ∃ f ∈ spans heap.root, ¬ Span.Disjoint ⟨base, size⟩ f

/-- Ordered free blocks with gaps between them, in the area, and positive
heights. -/
structure Heap.Sound (heap : Heap) : Prop where
  free : Tiling heap.startAddr heap.endAddr (spans heap.root) []
  positive : Positive heap.root
  high : heap.endAddr < wordSize

theorem tiling_add {free : List Span} {b : Span} (h : Tiling lo hi free []) (hin : b.Within lo hi)
    (hd : ∀ f ∈ free, b.Disjoint f) : Tiling lo hi free [b] :=
  ⟨h.sorted, h.gap, h.pos, h.freeIn, fun x hx => by rw [List.mem_singleton.mp hx]; exact hin,
    List.pairwise_singleton _ _, fun x hx f hf => by rw [List.mem_singleton.mp hx]; exact hd f hf⟩

/-- A range that can be taken is like a block that was handed out. -/
theorem Heap.Sound.handed {heap : Heap} (h : heap.Sound) (hok : ¬ Refused heap base size) :
    Tiling heap.startAddr heap.endAddr (spans heap.root) [⟨base, size⟩] := by
  simp only [Refused, not_or, not_exists, not_and, not_not] at hok
  obtain ⟨-, hlo, hhi, hd⟩ := hok
  exact tiling_add h.free ⟨Nat.not_lt.mp hlo, Nat.not_lt.mp hhi⟩ hd

theorem mem_merged {free : List Span} {b : Span} {L R : Option Span} {x : Nat}
    (ht : Tiling.Touching free b L R) :
    x ∈ Tiling.merged L b R ↔ x ∈ b ∨ (∃ f, L = some f ∧ x ∈ f) ∨ ∃ f, R = some f ∧ x ∈ f := by
  have hx : x ∈ Tiling.merged L b R ↔
    (Tiling.merged L b R).base ≤ x ∧ x < (Tiling.merged L b R).stop := Iff.rfl
  have hb : x ∈ b ↔ b.base ≤ x ∧ x < b.stop := Iff.rfl
  have hbs : b.base ≤ b.stop := Nat.le_add_right _ _
  have hin : ∀ f : Span, x ∈ f ↔ f.base ≤ x ∧ x < f.stop := fun f => Iff.rfl
  have hlen : ∀ f : Span, f.base ≤ f.stop := fun f => Nat.le_add_right _ _
  obtain ⟨hl, hr⟩ := ht.merged
  rw [hx, hb]
  rcases hl with ⟨rfl, hl⟩ | ⟨f, -, rfl, hf, hl⟩ <;> rcases hr with ⟨rfl, hr⟩ | ⟨g, -, rfl, hg, hr⟩
  · simp only [hl, hr, reduceCtorEq, false_and, exists_false, or_false]
  · simp only [hl, hr, reduceCtorEq, false_and, exists_false, false_or, Option.some.injEq,
      exists_eq_left', hin]
    have := hlen g
    omega
  · simp only [hl, hr, reduceCtorEq, false_and, exists_false, or_false, Option.some.injEq,
      exists_eq_left', hin]
    have := hlen f
    omega
  · simp only [hl, hr, Option.some.injEq, exists_eq_left', hin]
    have := hlen f
    have := hlen g
    omega

end

section
variable {s s' : HeapState} {base size node : Nat} {message : Option Message}

theorem heapFree_refused (h : s.heap.Sound) (hfit : base + size < wordSize)
    (hno : Refused s.heap base size) (node : Nat) :
    ∃ message, heapFree node base size s = some (some message, s) := by
  rw [heapFree, add32_eq hfit]
  split
  · exact ⟨_, rfl⟩
  · rename_i hvalid
    have hmeet : ∃ f ∈ spans s.heap.root, ¬ Span.Disjoint ⟨base, size⟩ f := by
      rcases hno with hz | hlo | hhi | hmeet
      · exact absurd (.inl hz) hvalid
      · exact absurd (.inr (.inl hlo)) hvalid
      · exact absurd (.inr (.inr hhi)) hvalid
      · exact hmeet
    have hpos : 0 < size := Nat.pos_of_ne_zero fun hz => hvalid (.inl hz)
    rw [if_pos ((overlapFound_iff h.free h.high hpos hfit).mpr hmeet)]
    exact ⟨_, rfl⟩

/-- Only the insertion at the end can fail to complete. -/
theorem heapFree_completes (h : s.heap.Sound) (hok : ¬ Refused s.heap base size) :
    ∃ base' size' root, ∀ node, heapFree node base size s =
      (avlInsert node base' size' root).map fun root' => (none, s.setRoot root') := by
  have hlive := h.handed hok
  simp only [Refused, not_or] at hok
  have hpos : 0 < size := Nat.pos_of_ne_zero hok.1
  have hfit : base + size < wordSize := (Nat.not_lt.mp hok.2.2.1).trans_lt h.high
  have hvalid : ¬ (size = 0 ∨ base < s.heap.startAddr ∨ add32 base size > s.heap.endAddr) := by
    rw [add32_eq hfit]
    omega
  have hleft : ∃ base₁ size₁ t₁, Positive t₁ ∧
      mergeLeft (findNeighbors base size s.heap.root none none).1 base size s.heap.root =
        some (base₁, size₁, t₁) := by
    cases (findNeighbors base size s.heap.root none none).1 with
    | none => exact ⟨_, _, _, h.positive, rfl⟩
    | some c =>
      obtain ⟨t₁, ht₁, hp₁⟩ := avlDelete_some h.positive c.base
      exact ⟨c.base, add32 size c.size, t₁, hp₁, by simp [mergeLeft, ht₁]⟩
  obtain ⟨base₁, size₁, t₁, hp₁, h₁⟩ := hleft
  have hright : ∃ size₂ t₂, mergeRight (findNeighbors base size s.heap.root none none).2 size₁ t₁ =
      some (size₂, t₂) := by
    cases (findNeighbors base size s.heap.root none none).2 with
    | none => exact ⟨_, _, rfl⟩
    | some c =>
      obtain ⟨t₂, ht₂, -⟩ := avlDelete_some hp₁ c.base
      exact ⟨add32 size₁ c.size, t₂, by simp [mergeRight, ht₂]⟩
  obtain ⟨size₂, t₂, h₂⟩ := hright
  refine ⟨base₁, size₂, t₂, fun node => ?_⟩
  rw [heapFree, if_neg hvalid, overlapFound_live hlive h.high (by simp) hpos,
    if_neg Bool.false_ne_true]
  simp only [bind, h₁, h₂, Option.bind_some]
  cases avlInsert node base₁ size₂ t₂ <;> rfl

/-- A range that is taken is free afterwards, and nothing else has changed. -/
structure Released (base size : Nat) (s s' : HeapState) : Prop where
  only : ∃ root, s' = s.setRoot root
  sound : s'.heap.Sound
  bytes : ∀ x, IsFree s'.heap.root x ↔ IsFree s.heap.root x ∨ x ∈ (⟨base, size⟩ : Span)

theorem avlDelete_positive {t t' : AvlNode} (hp : Positive t) (h : avlDelete base t = some t') :
    Positive t' := by
  obtain ⟨v, hv, hpv⟩ := avlDelete_some hp base
  obtain rfl : v = t' := Option.some.inj (hv.symm.trans h)
  exact hpv

theorem mergeLeft_positive {left : Option Cell} {t t' : AvlNode} (hp : Positive t)
    (h : mergeLeft left base size t = some (base', size', t')) : Positive t' := by
  cases left with
  | none =>
    cases h
    exact hp
  | some c =>
    simp only [mergeLeft, bind, Option.bind_eq_some_iff, Option.some.injEq, Prod.mk.injEq] at h
    obtain ⟨u, hu, -, -, rfl⟩ := h
    exact avlDelete_positive hp hu

theorem mergeRight_positive {right : Option Cell} {t t' : AvlNode} (hp : Positive t)
    (h : mergeRight right size t = some (size', t')) : Positive t' := by
  cases right with
  | none =>
    cases h
    exact hp
  | some c =>
    simp only [mergeRight, bind, Option.bind_eq_some_iff, Option.some.injEq, Prod.mk.injEq] at h
    obtain ⟨u, hu, -, rfl⟩ := h
    exact avlDelete_positive hp hu

theorem heapFree_positive (hp : Positive s.heap.root)
    (h : heapFree node base size s = some (message, s')) : Positive s'.heap.root := by
  rw [heapFree] at h
  split at h
  · cases h
    exact hp
  · split at h
    · cases h
      exact hp
    · simp only [bind, Option.bind_eq_some_iff, Option.some.injEq, Prod.mk.injEq] at h
      obtain ⟨⟨base', size', t₁⟩, h₁, ⟨size'', t₂⟩, h₂, root, h₃, -, rfl⟩ := h
      exact avlInsert_positive (mergeRight_positive (mergeLeft_positive hp h₁) h₂) h₃

theorem heapFree_released (h : s.heap.Sound) (hok : ¬ Refused s.heap base size)
    (hs : heapFree node base size s = some (message, s')) :
    message = none ∧ Released base size s s' := by
  have hlive := h.handed hok
  have hpos : 0 < size := Nat.pos_of_ne_zero fun hz => hok (.inl hz)
  have hmem : (⟨base, size⟩ : Span) ∈ [(⟨base, size⟩ : Span)] := List.mem_singleton.mpr rfl
  obtain ⟨rfl, root, L, R, rfl, htouch, ho, hspans, -⟩ :=
    heapFree_spec hlive h.high hmem hpos hs
  have htiling := hlive.release hmem hpos htouch ho fun x hx => (hspans x).mp hx
  refine ⟨rfl, ⟨root, rfl⟩, ⟨?_, heapFree_positive h.positive hs, h.high⟩, fun x => ?_⟩
  · rwa [List.erase_cons_head] at htiling
  · -- a neighbour of the range is free because the merged block is
    have hfree : IsFree root x ↔ x ∈ Tiling.merged L ⟨base, size⟩ R ∨
        ∃ f ∈ spans s.heap.root, L ≠ some f ∧ R ≠ some f ∧ x ∈ f := by
      simp only [IsFree, hspans]
      constructor
      · rintro ⟨f, rfl | ⟨hf, hl, hr⟩, hx⟩
        · exact .inl hx
        · exact .inr ⟨f, hf, hl, hr, hx⟩
      · rintro (hx | ⟨f, hf, hl, hr, hx⟩)
        · exact ⟨_, .inl rfl, hx⟩
        · exact ⟨f, .inr ⟨hf, hl, hr⟩, hx⟩
    show IsFree root x ↔ _
    rw [hfree, mem_merged htouch]
    constructor
    · rintro ((hx | ⟨f, hf, hx⟩ | ⟨f, hf, hx⟩) | ⟨f, hf, -, -, hx⟩)
      · exact .inr hx
      · exact .inl ⟨f, ((htouch.left f).mp hf).1, hx⟩
      · exact .inl ⟨f, ((htouch.right f).mp hf).1, hx⟩
      · exact .inl ⟨f, hf, hx⟩
    · rintro (⟨f, hf, hx⟩ | hx)
      · by_cases hl : L = some f
        · exact .inl (.inr (.inl ⟨f, hl, hx⟩))
        · by_cases hr : R = some f
          · exact .inl (.inr (.inr ⟨f, hr, hx⟩))
          · exact .inr ⟨f, hf, hl, hr, hx⟩
      · exact .inl (.inl hx)

/-- A block that begins with a free byte is in the way of its own release. -/
theorem ifree_again (h : s.heap.Sound) {ptr : Nat} (node : Nat)
    (hfree : ∀ x ∈ (⟨sub32 ptr headerSize, s.mem.read32 (sub32 ptr headerSize + 4) + headerSize⟩ :
      Span), IsFree s.heap.root x) :
    ∃ message, ifree node ptr s = some (some message, s) := by
  have hnull : ptr = 0 → sub32 ptr headerSize = wordSize - headerSize := by
    rintro rfl
    rfl
  generalize hhead : sub32 ptr headerSize = header at hfree hnull
  generalize hlen : s.mem.read32 (header + 4) = n at hfree
  have hin : ∀ x, header ≤ x → x < header + (n + headerSize) → x < s.heap.endAddr := by
    intro x h1 h2
    obtain ⟨f, hf, hx⟩ := hfree x ⟨h1, h2⟩
    exact hx.2.trans_le (h.free.freeIn f hf).2
  have hhigh := h.high
  have hsize : headerSize = 8 := rfl
  have hlast := hin (header + (n + 7)) (by omega) (by omega)
  rw [ifree]
  split
  · rename_i hz
    have := hnull hz
    omega
  · simp only [hhead, hlen]
    split
    · exact ⟨_, rfl⟩
    · rw [add32_eq (by omega)]
      have hfirst : header ∈ (⟨header, n + headerSize⟩ : Span) :=
        ⟨Nat.le_refl _, Nat.lt_add_of_pos_right (Nat.succ_pos _)⟩
      obtain ⟨f, hf, hx⟩ := hfree header hfirst
      have hmeet : ¬ Span.Disjoint ⟨header, n + headerSize⟩ f := fun hd =>
        Span.disjoint_iff.mp hd header hfirst hx
      obtain ⟨message, hm⟩ := heapFree_refused h (by omega)
        (.inr (.inr (.inr ⟨f, hf, hmeet⟩))) node
      exact ⟨message, hm⟩

/-- `heap_free` refuses a range without a trace, or frees exactly it; only the
insertion at the end may not complete. -/
theorem free_exact (h : s.heap.Sound) (hfit : base + size < wordSize) :
    (Refused s.heap base size →
      ∀ node, ∃ message, heapFree node base size s = some (some message, s)) ∧
    (¬ Refused s.heap base size →
      (∃ base' size' root, ∀ node, heapFree node base size s =
        (avlInsert node base' size' root).map fun root' => (none, s.setRoot root')) ∧
      ∀ node message s', heapFree node base size s = some (message, s') →
        message = none ∧ Released base size s s') ∧
    ∀ node ptr, (∀ x ∈ (⟨sub32 ptr headerSize,
        s.mem.read32 (sub32 ptr headerSize + 4) + headerSize⟩ : Span), IsFree s.heap.root x) →
      ∃ message, ifree node ptr s = some (some message, s) :=
  ⟨fun hno node => heapFree_refused h hfit hno node,
    fun hok => ⟨heapFree_completes h hok, fun _ _ _ hs => heapFree_released h hok hs⟩,
    fun node _ hfree => ifree_again h node hfree⟩

/-- Freeing the half page before a free block. -/
theorem free_exact_half : ∃ s', heapFree 8 0x1000 0x800
      ⟨⟨createNode 4 0x1800 0x800, 0x1000, 0x3000, 0x10000, true, false⟩, fun _ => 0#8, []⟩ =
        some (none, s') ∧ spans s'.heap.root = [⟨0x1000, 0x1000⟩] ∧ IsFree s'.heap.root 0x1000 := by
  generalize hs : (⟨⟨createNode 4 0x1800 0x800, 0x1000, 0x3000, 0x10000, true, false⟩,
    fun _ => 0#8, []⟩ : HeapState) = s
  have hsound : s.heap.Sound := by
    subst hs
    refine ⟨⟨List.pairwise_singleton _ _, ?_, ?_, ?_, by simp, List.Pairwise.nil, by simp⟩,
      by simp [createNode, Positive], by decide⟩ <;>
      simp [createNode, spans, Cell.span, Span.Within, Span.stop]
  have hok : ¬ Refused s.heap 0x1000 0x800 := by
    subst hs
    simp [Refused, createNode, spans, Cell.span, Span.Disjoint, Span.stop]
  have hrun : ∃ s', heapFree 8 0x1000 0x800 s = some (none, s') ∧
      spans s'.heap.root = [⟨0x1000, 0x1000⟩] := by
    subst hs
    exact ⟨_, rfl, rfl⟩
  obtain ⟨s', hs', hspans⟩ := hrun
  have hreleased := ((free_exact hsound (by decide)).2.1 hok).2 8 none s' hs'
  exact ⟨s', hs', hspans, (hreleased.2.bytes 0x1000).mpr (.inr (by decide))⟩

end

end Shigure.Vm
