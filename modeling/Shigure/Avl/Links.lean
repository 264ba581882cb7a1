import Shigure.Avl.Search

/-!
# The tree as something linked

What a tree in memory has to know of the operations. A stored height is at most
the number of nodes, so it fits in an `int`. A deletion leaves every other block
in its node or unlinks the node. And an insertion may come back from its leaf
with no node at all, when there is no storage for one.
-/

namespace Shigure.Avl

section
variable {t t' l r leaf : AvlNode} {c : Cell} {base : Nat}

-- ---------------------------------------------------------------------------
-- Heights
-- ---------------------------------------------------------------------------

/-- No stored height is larger than the number of nodes below. -/
def Bounded : AvlNode → Prop
  | .nil => True
  | .node c l r => c.height ≤ (addrs (.node c l r)).length ∧ Bounded l ∧ Bounded r

theorem addrs_length_node :
    (addrs (.node c l r)).length = (addrs l).length + (addrs r).length + 1 := by
  simp only [addrs_node, List.length_append, List.length_cons]
  omega

theorem Bounded.height_le (h : Bounded t) : height t ≤ (addrs t).length := by
  cases t with
  | nil => simp [height]
  | node c l r => exact h.1

theorem Bounded.update (hl : Bounded l) (hr : Bounded r) :
    Bounded (.node (updateHeight c l r) l r) := by
  have := hl.height_le
  have := hr.height_le
  refine ⟨?_, hl, hr⟩
  rw [addrs_length_node]
  simp only [updateHeight]
  split <;> omega

theorem rotateRight_bounded (hl : Bounded l) (hr : Bounded r)
    (h : rotateRight (.node c l r) = some t') : Bounded t' := by
  obtain ⟨y, x, xl, t2, yr, heq, hx, rfl, hhx⟩ := rotateRight_inv h
  cases heq
  have hy := hl.2.2.update (c := c) hr
  have := hl.2.1.height_le
  have := hy.height_le
  refine ⟨?_, hl.2.1, hy⟩
  rw [addrs_length_node]
  dsimp only
  rw [hhx]
  split <;> omega

theorem rotateLeft_bounded (hl : Bounded l) (hr : Bounded r)
    (h : rotateLeft (.node c l r) = some t') : Bounded t' := by
  obtain ⟨x, xl, y, t2, yr, heq, hx, rfl, hhx⟩ := rotateLeft_inv h
  cases heq
  have := hl.height_le
  have := hr.2.1.height_le
  refine Bounded.update ⟨?_, hl, hr.2.1⟩ hr.2.2
  rw [addrs_length_node]
  dsimp only
  rw [hhx]
  split <;> omega

theorem rebalanceInsert_bounded (hl : Bounded l) (hr : Bounded r)
    (h : rebalanceInsert base c l r = some t') : Bounded t' := by
  simp only [rebalanceInsert] at h
  split at h
  · cases l with
    | nil => cases h
    | node lc ll lr =>
      simp only at h
      split at h
      · exact rotateRight_bounded hl hr h
      · split at h
        · obtain ⟨l', hl', h⟩ := Option.bind_eq_some_iff.mp h
          exact rotateRight_bounded (rotateLeft_bounded hl.2.1 hl.2.2 hl') hr h
        · cases h
          exact hl.update hr
  · split at h
    · cases r with
      | nil => cases h
      | node rc rl rr =>
        simp only at h
        split at h
        · exact rotateLeft_bounded hl hr h
        · split at h
          · obtain ⟨r', hr', h⟩ := Option.bind_eq_some_iff.mp h
            exact rotateLeft_bounded hl (rotateRight_bounded hr.2.1 hr.2.2 hr') h
          · cases h
            exact hl.update hr
    · cases h
      exact hl.update hr

theorem rebalanceDelete_bounded (hl : Bounded l) (hr : Bounded r)
    (h : rebalanceDelete c l r = some t') : Bounded t' := by
  simp only [rebalanceDelete] at h
  split at h
  · exact rotateRight_bounded hl hr h
  split at h
  · exact rotateLeft_bounded hl hr h
  split at h
  · obtain ⟨l', hl', h⟩ := Option.bind_eq_some_iff.mp h
    cases l with
    | nil => cases hl'
    | node lc ll lr => exact rotateRight_bounded (rotateLeft_bounded hl.2.1 hl.2.2 hl') hr h
  split at h
  · obtain ⟨r', hr', h⟩ := Option.bind_eq_some_iff.mp h
    cases r with
    | nil => cases hr'
    | node rc rl rr => exact rotateLeft_bounded hl (rotateRight_bounded hr.2.1 hr.2.2 hr') h
  · cases h
    exact hl.update hr

theorem avlDelete_bounded (hb : Bounded t) (h : avlDelete base t = some t') : Bounded t' := by
  induction t generalizing base t' with
  | nil =>
    cases h
    trivial
  | node c l r ihl ihr =>
    obtain ⟨-, hl, hr⟩ := hb
    rcases avlDelete_cases h with ⟨-, l', hl', h⟩ | ⟨-, r', hr', h⟩ | ⟨rfl, hd⟩
    · exact rebalanceDelete_bounded (ihl hl hl') hr h
    · exact rebalanceDelete_bounded hl (ihr hr hr') h
    · rcases hd with ⟨rfl, rfl⟩ | ⟨rfl, rfl⟩ | ⟨-, temp, r', -, hr', h⟩
      · exact hr
      · exact hl
      · exact rebalanceDelete_bounded hl (ihr hr hr') h

-- ---------------------------------------------------------------------------
-- Which node keeps which block
-- ---------------------------------------------------------------------------

theorem mem_addrs_of_mem (h : c ∈ inorder t) : c.addr ∈ addrs t := List.mem_map_of_mem h

theorem Ordered.cells (h : Ordered t) : Sorted Cell.base (inorder t) := by
  rw [Ordered, Sorted, spans, List.pairwise_map] at h
  exact h

theorem findMinBase_mem (h : findMinBase t = some c) : c ∈ inorder t := by
  induction t with
  | nil => cases h
  | node d l r ihl _ =>
    cases l with
    | nil =>
      obtain rfl := Option.some.inj h
      simp
    | node lc ll lr => exact List.mem_append_left _ (ihl h)

theorem avlDelete_min (ho : Ordered t) (hm : findMinBase t = some c)
    (h : avlDelete c.base t = some t') : addrs t = c.addr :: addrs t' := by
  induction t generalizing t' with
  | nil => cases hm
  | node d l r ihl _ =>
    obtain ⟨hl, -, hlc, -⟩ := ordered_node.mp ho
    by_cases hnil : l = .nil
    · subst hnil
      obtain rfl := Option.some.inj hm
      rcases avlDelete_found rfl h with ⟨-, rfl⟩ | ⟨rfl, rfl⟩ | ⟨hr, -⟩
      · rfl
      · rfl
      · simp only [avlDelete, lt_irrefl, ↓reduceIte, true_and, true_or, not_true_eq_false, ne_eq,
          hr, Option.some.injEq] at h
        rw [← h]
        rfl
    · have hm : findMinBase l = some c := by
        cases l with
        | nil => exact absurd rfl hnil
        | node lc ll lr => exact hm
      have hlt : c.base < d.base := hlc c.span (mem_spans_of_mem (findMinBase_mem hm))
      rw [avlDelete, if_pos hlt] at h
      obtain ⟨l', hl', h⟩ := Option.bind_eq_some_iff.mp h
      rw [(rebalanceDelete_same h).2.1, addrs_node, addrs_node, ihl hl hm hl']
      rfl

/-- The node of `c` still holds its block, or is not in the tree. -/
def Kept (c : Cell) (t : AvlNode) : Prop :=
  c.addr ∉ addrs t ∨ ∃ c' ∈ inorder t, c'.addr = c.addr ∧ c'.span = c.span

theorem Kept.of_mem (h : c ∈ inorder t) : Kept c t := .inr ⟨c, h, rfl, rfl⟩

theorem Kept.same (h : Kept c t) (hs : SameContents t t') : Kept c t' := by
  rcases h with hout | ⟨c', hc', ha, hs'⟩
  · exact .inl (by rwa [hs.2.1])
  · obtain ⟨c'', hc'', ha'', hs''⟩ := exists_same_cell hs.1 hs.2.1 hc'
    exact .inr ⟨c'', hc'', ha''.trans ha, hs''.trans hs'⟩

theorem Kept.left (h : Kept c l) (hd : c.addr ≠ d.addr) (hr : c.addr ∉ addrs r) :
    Kept c (.node d l r) := by
  rcases h with hout | ⟨c', hc', h⟩
  · exact .inl (by simp [hout, hd, hr])
  · exact .inr ⟨c', by simp [hc'], h⟩

theorem Kept.right (h : Kept c r) (hd : c.addr ≠ d.addr) (hl : c.addr ∉ addrs l) :
    Kept c (.node d l r) := by
  rcases h with hout | ⟨c', hc', h⟩
  · exact .inl (by simp [hout, hd, hl])
  · exact .inr ⟨c', by simp [hc'], h⟩

theorem avlDelete_kept (ho : Ordered t) (hn : (addrs t).Nodup) (h : avlDelete base t = some t')
    (hc : c ∈ inorder t) (hne : c.base ≠ base) : Kept c t' := by
  induction t generalizing base t' with
  | nil => cases hc
  | node d l r ihl ihr =>
    obtain ⟨hl, hr, -, -⟩ := ordered_node.mp ho
    rw [addrs_node, List.nodup_append] at hn
    obtain ⟨hnl, hnr, hdis⟩ := hn
    obtain ⟨hdr, hnr⟩ := List.nodup_cons.mp hnr
    have inLeft : c ∈ inorder l → c.addr ≠ d.addr ∧ c.addr ∉ addrs r := fun hc =>
      ⟨fun he => hdis _ (mem_addrs_of_mem hc) _ List.mem_cons_self he,
        fun hin => hdis _ (mem_addrs_of_mem hc) _ (List.mem_cons_of_mem _ hin) rfl⟩
    have inRight : c ∈ inorder r → c.addr ≠ d.addr ∧ c.addr ∉ addrs l := fun hc =>
      ⟨fun he => hdr (he ▸ mem_addrs_of_mem hc),
        fun hin => hdis _ hin _ (List.mem_cons_of_mem _ (mem_addrs_of_mem hc)) rfl⟩
    have hc' : c ∈ inorder l ∨ c = d ∨ c ∈ inorder r := by simpa using hc
    rcases avlDelete_cases h with ⟨-, l', hl', h⟩ | ⟨-, r', hr', h⟩ | ⟨rfl, hd⟩
    · refine Kept.same ?_ (rebalanceDelete_same h)
      rcases hc' with hc | rfl | hc
      · exact (ihl hl hnl hl' hc hne).left (inLeft hc).1 (inLeft hc).2
      · exact .of_mem (by simp)
      · exact .of_mem (by simp [hc])
    · refine Kept.same ?_ (rebalanceDelete_same h)
      rcases hc' with hc | rfl | hc
      · exact .of_mem (by simp [hc])
      · exact .of_mem (by simp)
      · exact (ihr hr hnr hr' hc hne).right (inRight hc).1 (inRight hc).2
    · have hc' : c ∈ inorder l ∨ c ∈ inorder r := by
        rcases hc' with hc | rfl | hc
        · exact .inl hc
        · exact absurd rfl hne
        · exact .inr hc
      rcases hd with ⟨rfl, rfl⟩ | ⟨rfl, rfl⟩ | ⟨-, temp, r', hm, hr', h⟩
      · exact .of_mem (hc'.resolve_left nofun)
      · exact .of_mem (hc'.resolve_right nofun)
      · refine Kept.same ?_ (rebalanceDelete_same h)
        rcases hc' with hc | hc
        · exact .of_mem (by simp [hc])
        · refine Kept.right ?_ (inRight hc).1 (inRight hc).2
          by_cases hb : c.base = temp.base
          · -- the successor itself: its node is unlinked on the right
            obtain rfl := hr.cells.eq_of_key hc (findMinBase_mem hm) hb
            rw [avlDelete_min hr hm hr'] at hnr
            exact .inl (List.nodup_cons.mp hnr).1
          · exact ihr hr hnr hr' hc hb

-- ---------------------------------------------------------------------------
-- Insertion of a leaf
-- ---------------------------------------------------------------------------

/-- `avl_insert` around what `create_node` returns. -/
def insertLeaf (leaf : AvlNode) (base : Nat) : AvlNode → Option AvlNode
  | .nil => some leaf
  | .node c l r =>
    if base < c.base then do rebalanceInsert base c (← insertLeaf leaf base l) r
    else if base > c.base then do rebalanceInsert base c l (← insertLeaf leaf base r)
    else some (.node c l r)

theorem insertLeaf_createNode :
    insertLeaf (createNode addr base size) base t = avlInsert.go addr base size t := by
  induction t with
  | nil => rfl
  | node c l r ihl ihr => simp only [insertLeaf, avlInsert.go, ihl, ihr]

theorem insertLeaf_cases (h : insertLeaf leaf base (.node c l r) = some t') :
    (base < c.base ∧ ∃ l', insertLeaf leaf base l = some l' ∧ rebalanceInsert base c l' r = some t') ∨
    (c.base < base ∧ ∃ r', insertLeaf leaf base r = some r' ∧ rebalanceInsert base c l r' = some t') ∨
    (base = c.base ∧ t' = .node c l r) := by
  rw [insertLeaf] at h
  split at h
  · exact .inl ⟨‹_›, Option.bind_eq_some_iff.mp h⟩
  · split at h
    · exact .inr (.inl ⟨‹_›, Option.bind_eq_some_iff.mp h⟩)
    · exact .inr (.inr ⟨by omega, (Option.some.inj h).symm⟩)

theorem insertLeaf_nil (h : insertLeaf .nil base t = some t') : SameContents t t' := by
  induction t generalizing t' with
  | nil =>
    cases h
    exact .refl _
  | node c l r ihl ihr =>
    rcases insertLeaf_cases h with ⟨-, l', hl', h⟩ | ⟨-, r', hr', h⟩ | ⟨-, rfl⟩
    · exact (ihl hl').left.trans (rebalanceInsert_same h)
    · exact (ihr hr').right.trans (rebalanceInsert_same h)
    · exact .refl _

theorem insertLeaf_bounded (hleaf : Bounded leaf) (hb : Bounded t)
    (h : insertLeaf leaf base t = some t') : Bounded t' := by
  induction t generalizing t' with
  | nil =>
    cases h
    exact hleaf
  | node c l r ihl ihr =>
    rcases insertLeaf_cases h with ⟨-, l', hl', h⟩ | ⟨-, r', hr', h⟩ | ⟨-, rfl⟩
    · exact rebalanceInsert_bounded (ihl hb.2.1 hl') hb.2.2 h
    · exact rebalanceInsert_bounded hb.2.1 (ihr hb.2.2 hr') h
    · exact hb

theorem insertLeaf_positive (hleaf : Positive leaf) (hp : Positive t)
    (h : insertLeaf leaf base t = some t') : Positive t' := by
  induction t generalizing t' with
  | nil =>
    cases h
    exact hleaf
  | node c l r ihl ihr =>
    obtain ⟨hc, hl, hr⟩ := hp
    rcases insertLeaf_cases h with ⟨-, l', hl', h⟩ | ⟨-, r', hr', h⟩ | ⟨-, rfl⟩
    · exact (rebalanceInsert_same h).2.2 ⟨hc, ihl hl hl', hr⟩
    · exact (rebalanceInsert_same h).2.2 ⟨hc, hl, ihr hr hr'⟩
    · exact ⟨hc, hl, hr⟩

theorem insertLeaf_addrs (h : insertLeaf leaf base t = some t') :
    addrs t' = addrs t ∨ (addrs t').Perm (addrs leaf ++ addrs t) := by
  induction t generalizing t' with
  | nil =>
    cases h
    exact .inr (by simp)
  | node c l r ihl ihr =>
    rcases insertLeaf_cases h with ⟨-, l', hl', h⟩ | ⟨-, r', hr', h⟩ | ⟨-, rfl⟩
    · rw [(rebalanceInsert_same h).2.1, addrs_node, addrs_node]
      rcases ihl hl' with heq | hp
      · exact .inl (by rw [heq])
      · exact .inr (by rw [← List.append_assoc]; exact hp.append_right _)
    · rw [(rebalanceInsert_same h).2.1, addrs_node, addrs_node]
      rcases ihr hr' with heq | hp
      · exact .inl (by rw [heq])
      · right
        have hswap : (c.addr :: addrs r').Perm (addrs leaf ++ c.addr :: addrs r) :=
          (hp.cons _).trans List.perm_middle.symm
        rw [← List.append_assoc]
        refine (hswap.append_left _).trans ?_
        rw [← List.append_assoc]
        exact List.perm_append_comm.append_right _
    · exact .inl rfl

end

end Shigure.Avl
