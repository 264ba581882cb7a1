import Mathlib.Data.Int.Order.Basic
import Mathlib.Data.Nat.Basic
import Shigure.Avl.Node
import Shigure.Lib.Reach
import Shigure.Lib.SearchTree
import Shigure.Lib.Span

/-!
# What the tree operations do to the contents

Whatever the stored heights are, an insertion or a deletion that completes
edits the in-order sequence of blocks as a finite map is edited. With positive
heights both always complete: a balance beyond one tells that the taller child
is there, and the key picks an inner child that holds it.
-/

namespace Shigure.Avl

def Cell.span (c : Cell) : Span := ⟨c.base, c.size⟩

def spans (t : AvlNode) : List Span := (inorder t).map Cell.span

def addrs (t : AvlNode) : List Nat := (inorder t).map Cell.addr

@[simp] theorem spans_nil : spans .nil = [] := rfl

@[simp] theorem spans_node : spans (.node c l r) = spans l ++ c.span :: spans r := by
  simp [spans]

@[simp] theorem addrs_nil : addrs .nil = [] := rfl

@[simp] theorem addrs_node : addrs (.node c l r) = addrs l ++ c.addr :: addrs r := by
  simp [addrs]

@[simp] theorem span_updateHeight : (updateHeight c l r).span = c.span := rfl

@[simp] theorem addr_updateHeight : (updateHeight c l r).addr = c.addr := rfl

@[simp] theorem span_setHeight {c : Cell} : ({ c with height := h } : Cell).span = c.span := rfl

def Ordered (t : AvlNode) : Prop := Sorted Span.base (spans t)

theorem ordered_node : Ordered (.node c l r) ↔ Ordered l ∧ Ordered r ∧
    (∀ s ∈ spans l, s.base < c.base) ∧ ∀ s ∈ spans r, c.base < s.base := by
  simp only [Ordered, spans_node]
  exact sorted_middle

theorem Ordered.nil : Ordered .nil := List.Pairwise.nil

def Positive : AvlNode → Prop
  | .nil => True
  | .node c l r => 0 < c.height ∧ Positive l ∧ Positive r

theorem Positive.height_nonneg (h : Positive t) : 0 ≤ height t := by
  cases t with
  | nil => simp [height]
  | node c l r => exact h.1.le

theorem Positive.update (hl : Positive l) (hr : Positive r) :
    Positive (.node (updateHeight c l r) l r) := by
  have := hl.height_nonneg
  have := hr.height_nonneg
  refine ⟨?_, hl, hr⟩
  simp only [updateHeight]
  split <;> omega

-- ---------------------------------------------------------------------------
-- Rotations
-- ---------------------------------------------------------------------------

theorem rotateRight_inv (h : rotateRight t = some t') :
    ∃ y x xl t2 yr, t = .node y (.node x xl t2) yr ∧
      ∃ hx, t' = .node { x with height := hx } xl (.node (updateHeight y t2 yr) t2 yr) ∧
        hx = 1 + if height xl > height yr then height xl
          else height (.node (updateHeight y t2 yr) t2 yr) := by
  unfold rotateRight at h
  split at h
  · cases h
    exact ⟨_, _, _, _, _, rfl, _, rfl, rfl⟩
  · cases h

theorem rotateLeft_inv (h : rotateLeft t = some t') :
    ∃ x xl y t2 yr, t = .node x xl (.node y t2 yr) ∧
      ∃ hx, t' = .node (updateHeight y (.node { x with height := hx } xl t2) yr)
          (.node { x with height := hx } xl t2) yr ∧
        hx = 1 + if height xl > height yr then height xl else height t2 := by
  unfold rotateLeft at h
  split at h
  · cases h
    exact ⟨_, _, _, _, _, rfl, _, rfl, rfl⟩
  · cases h

/-- What a rotation keeps: the blocks, the nodes and the sign of heights. -/
def SameContents (t t' : AvlNode) : Prop :=
  spans t' = spans t ∧ addrs t' = addrs t ∧ (Positive t → Positive t')

theorem SameContents.refl (t : AvlNode) : SameContents t t := ⟨rfl, rfl, id⟩

theorem SameContents.trans (h : SameContents a b) (h' : SameContents b c) : SameContents a c :=
  ⟨h'.1.trans h.1, h'.2.1.trans h.2.1, h'.2.2 ∘ h.2.2⟩

theorem SameContents.left (h : SameContents l l') :
    SameContents (.node c l r) (.node c l' r) := by
  refine ⟨by simp [h.1], by simp [h.2.1], ?_⟩
  rintro ⟨hc, hl, hr⟩
  exact ⟨hc, h.2.2 hl, hr⟩

theorem SameContents.right (h : SameContents r r') :
    SameContents (.node c l r) (.node c l r') := by
  refine ⟨by simp [h.1], by simp [h.2.1], ?_⟩
  rintro ⟨hc, hl, hr⟩
  exact ⟨hc, hl, h.2.2 hr⟩

theorem SameContents.update : SameContents (.node c l r) (.node (updateHeight c l r) l r) :=
  ⟨by simp, by simp, fun h => h.2.1.update h.2.2⟩

theorem rotateRight_same (h : rotateRight t = some t') : SameContents t t' := by
  obtain ⟨y, x, xl, t2, yr, rfl, hx, rfl, heq⟩ := rotateRight_inv h
  refine ⟨by simp, by simp, ?_⟩
  rintro ⟨-, ⟨-, hxl, ht2⟩, hyr⟩
  have hy := ht2.update (c := y) hyr
  refine ⟨?_, hxl, hy⟩
  have := hxl.height_nonneg
  have := hy.height_nonneg
  simp only [heq]
  split <;> omega

theorem rotateLeft_same (h : rotateLeft t = some t') : SameContents t t' := by
  obtain ⟨x, xl, y, t2, yr, rfl, hx, rfl, heq⟩ := rotateLeft_inv h
  refine ⟨by simp, by simp, ?_⟩
  rintro ⟨-, hxl, -, ht2, hyr⟩
  have := hxl.height_nonneg
  have := ht2.height_nonneg
  have hx : 0 < hx := by
    rw [heq]
    split <;> omega
  exact Positive.update ⟨hx, hxl, ht2⟩ hyr

theorem rebalanceInsert_same (h : rebalanceInsert base c l r = some t') :
    SameContents (.node c l r) t' := by
  refine SameContents.update.trans ?_
  simp only [rebalanceInsert] at h
  split at h
  · cases l with
    | nil => cases h
    | node lc ll lr =>
      simp only at h
      split at h
      · exact rotateRight_same h
      · split at h
        · obtain ⟨l', hl, h⟩ := Option.bind_eq_some_iff.mp h
          exact (rotateLeft_same hl).left.trans (rotateRight_same h)
        · cases h
          exact .refl _
  · split at h
    · cases r with
      | nil => cases h
      | node rc rl rr =>
        simp only at h
        split at h
        · exact rotateLeft_same h
        · split at h
          · obtain ⟨r', hr, h⟩ := Option.bind_eq_some_iff.mp h
            exact (rotateRight_same hr).right.trans (rotateLeft_same h)
          · cases h
            exact .refl _
    · cases h
      exact .refl _

theorem rebalanceDelete_same (h : rebalanceDelete c l r = some t') :
    SameContents (.node c l r) t' := by
  refine SameContents.update.trans ?_
  simp only [rebalanceDelete] at h
  split at h
  · exact rotateRight_same h
  split at h
  · exact rotateLeft_same h
  split at h
  · obtain ⟨l', hl, h⟩ := Option.bind_eq_some_iff.mp h
    exact (rotateLeft_same hl).left.trans (rotateRight_same h)
  split at h
  · obtain ⟨r', hr, h⟩ := Option.bind_eq_some_iff.mp h
    exact (rotateRight_same hr).right.trans (rotateLeft_same h)
  · cases h
    exact .refl _

-- ---------------------------------------------------------------------------
-- Insertion
-- ---------------------------------------------------------------------------

theorem SameContents.ordered (h : SameContents t t') (ho : Ordered t) : Ordered t' := by
  rw [Ordered, h.1]
  exact ho

theorem insert_go_spans (ho : Ordered t) (h : avlInsert.go addr base size t = some t') :
    spans t' = insertKey Span.base ⟨base, size⟩ (spans t) := by
  induction t generalizing t' with
  | nil =>
    cases h
    rfl
  | node c l r ihl ihr =>
    obtain ⟨hl, hr, hlc, hcr⟩ := ordered_node.mp ho
    rw [spans_node]
    simp only [avlInsert.go] at h
    split at h
    · rename_i hb
      obtain ⟨l', hl', h⟩ := Option.bind_eq_some_iff.mp h
      rw [(rebalanceInsert_same h).1, spans_node, ihl hl hl', insertKey_left hb]
    · split at h
      · rename_i hb
        obtain ⟨r', hr', h⟩ := Option.bind_eq_some_iff.mp h
        rw [(rebalanceInsert_same h).1, spans_node, ihr hr hr', insertKey_right (c := c.span) (x := ⟨base, size⟩) hlc hb]
      · rename_i h1 h2
        cases h
        have hc : c.span.base = base := by
          simp only [Cell.span]
          omega
        rw [← spans_node]
        exact (insertKey_present (x := ⟨base, size⟩) ho ⟨c.span, by simp, hc⟩).symm

/-- The inserted block goes to its place in the order, unless its base is
already there. -/
theorem avlInsert_spans (hs : size ≠ 0) (ho : Ordered t)
    (h : avlInsert addr base size t = some t') :
    spans t' = insertKey Span.base ⟨base, size⟩ (spans t) := by
  rw [avlInsert, if_neg hs] at h
  exact insert_go_spans ho h

theorem avlInsert_ordered (ho : Ordered t) (h : avlInsert addr base size t = some t') :
    Ordered t' := by
  by_cases hs : size = 0
  · rw [avlInsert, if_pos hs] at h
    cases h
    exact ho
  · rw [Ordered, avlInsert_spans hs ho h]
    exact Sorted.insertKey ho

theorem insert_go_addrs (h : avlInsert.go addr base size t = some t') :
    addrs t' = addrs t ∨ (addrs t').Perm (addr :: addrs t) := by
  induction t generalizing t' with
  | nil =>
    cases h
    exact .inr (.refl _)
  | node c l r ihl ihr =>
    simp only [avlInsert.go] at h
    split at h
    · obtain ⟨l', hl', h⟩ := Option.bind_eq_some_iff.mp h
      rw [(rebalanceInsert_same h).2.1, addrs_node, addrs_node]
      rcases ihl hl' with heq | hp
      · exact .inl (by rw [heq])
      · exact .inr (hp.append_right _)
    · split at h
      · obtain ⟨r', hr', h⟩ := Option.bind_eq_some_iff.mp h
        rw [(rebalanceInsert_same h).2.1, addrs_node, addrs_node]
        rcases ihr hr' with heq | hp
        · exact .inl (by rw [heq])
        · right
          have hswap : (c.addr :: addrs r').Perm (addr :: c.addr :: addrs r) :=
            (hp.cons _).trans (.swap _ _ _)
          exact (hswap.append_left _).trans List.perm_middle
      · cases h
        exact .inl rfl

theorem avlInsert_nodup (hn : (addrs t).Nodup) (ha : addr ∉ addrs t)
    (h : avlInsert addr base size t = some t') : (addrs t').Nodup := by
  rw [avlInsert] at h
  split at h
  · cases h
    exact hn
  · rcases insert_go_addrs h with h | h
    · rwa [h]
    · exact h.nodup_iff.mpr (List.nodup_cons.mpr ⟨ha, hn⟩)

theorem insert_go_positive (hp : Positive t) (h : avlInsert.go addr base size t = some t') :
    Positive t' := by
  induction t generalizing t' with
  | nil =>
    cases h
    exact ⟨Int.one_pos, trivial, trivial⟩
  | node c l r ihl ihr =>
    obtain ⟨hc, hl, hr⟩ := hp
    simp only [avlInsert.go] at h
    split at h
    · obtain ⟨l', hl', h⟩ := Option.bind_eq_some_iff.mp h
      exact (rebalanceInsert_same h).2.2 ⟨hc, ihl hl hl', hr⟩
    · split at h
      · obtain ⟨r', hr', h⟩ := Option.bind_eq_some_iff.mp h
        exact (rebalanceInsert_same h).2.2 ⟨hc, hl, ihr hr hr'⟩
      · cases h
        exact ⟨hc, hl, hr⟩

theorem avlInsert_positive (hp : Positive t) (h : avlInsert addr base size t = some t') :
    Positive t' := by
  rw [avlInsert] at h
  split at h
  · cases h
    exact hp
  · exact insert_go_positive hp h

-- ---------------------------------------------------------------------------
-- Deletion
-- ---------------------------------------------------------------------------

theorem findMinBase_spans (h : r ≠ .nil) :
    ∃ temp rest, findMinBase r = some temp ∧ spans r = temp.span :: rest := by
  induction r with
  | nil => exact absurd rfl h
  | node c l r ihl _ =>
    cases l with
    | nil => exact ⟨c, spans r, rfl, rfl⟩
    | node lc ll lr =>
      obtain ⟨temp, rest, hm, hs⟩ := ihl nofun
      exact ⟨temp, rest ++ c.span :: spans r, hm, by rw [spans_node, hs]; rfl⟩

theorem avlDelete_found (hb : base = c.base) (h : avlDelete base (.node c l r) = some t') :
    (l = .nil ∧ t' = r) ∨ (r = .nil ∧ t' = l) ∨
      (r ≠ .nil ∧ ∃ temp r', findMinBase r = some temp ∧ avlDelete temp.base r = some r' ∧
        rebalanceDelete { c with base := temp.base, size := temp.size } l r' = some t') := by
  subst hb
  rw [avlDelete, if_neg (lt_irrefl _), if_neg (lt_irrefl _)] at h
  split at h
  · rename_i hn
    cases h
    exact .inl ⟨hn.1, hn.2.symm⟩
  · split at h
    · rename_i hn
      cases h
      by_cases hl : l = .nil
      · simp [hl]
      · exact .inr (.inl ⟨hn.resolve_left hl, by simp [hl]⟩)
    · rename_i hn
      obtain ⟨temp, hm, h⟩ := Option.bind_eq_some_iff.mp h
      obtain ⟨r', hr', h⟩ := Option.bind_eq_some_iff.mp h
      exact .inr (.inr ⟨fun hr => hn (.inr hr), temp, r', hm, hr', h⟩)

theorem avlDelete_cases (h : avlDelete base (.node c l r) = some t') :
    (base < c.base ∧ ∃ l', avlDelete base l = some l' ∧ rebalanceDelete c l' r = some t') ∨
    (c.base < base ∧ ∃ r', avlDelete base r = some r' ∧ rebalanceDelete c l r' = some t') ∨
    (base = c.base ∧ ((l = .nil ∧ t' = r) ∨ (r = .nil ∧ t' = l) ∨
      (r ≠ .nil ∧ ∃ temp r', findMinBase r = some temp ∧ avlDelete temp.base r = some r' ∧
        rebalanceDelete { c with base := temp.base, size := temp.size } l r' = some t'))) := by
  rcases Nat.lt_trichotomy base c.base with hb | hb | hb
  · rw [avlDelete, if_pos hb] at h
    exact .inl ⟨hb, Option.bind_eq_some_iff.mp h⟩
  · exact .inr (.inr ⟨hb, avlDelete_found hb h⟩)
  · rw [avlDelete, if_neg hb.not_gt, if_pos hb] at h
    exact .inr (.inl ⟨hb, Option.bind_eq_some_iff.mp h⟩)

theorem avlDelete_spans (ho : Ordered t) (h : avlDelete base t = some t') :
    spans t' = eraseKey Span.base base (spans t) := by
  induction t generalizing base t' with
  | nil =>
    cases h
    rfl
  | node c l r ihl ihr =>
    obtain ⟨hl, hr, hlc, hcr⟩ := ordered_node.mp ho
    rw [spans_node]
    rcases avlDelete_cases h with ⟨hb, l', hl', h⟩ | ⟨hb, r', hr', h⟩ | ⟨rfl, hd⟩
    · rw [(rebalanceDelete_same h).1, spans_node, ihl hl hl', eraseKey_left (c := c.span) hcr hb]
    · rw [(rebalanceDelete_same h).1, spans_node, ihr hr hr', eraseKey_right (c := c.span) hlc hb]
    · rw [show c.base = c.span.base from rfl, eraseKey_middle hlc hcr]
      rcases hd with ⟨rfl, rfl⟩ | ⟨rfl, rfl⟩ | ⟨hne, temp, r', hm, hr', h⟩
      · rfl
      · simp
      · obtain ⟨m, rest, hm', hs⟩ := findMinBase_spans hne
        obtain rfl : temp = m := Option.some.inj (hm.symm.trans hm')
        -- The successor heads the right subtree, so taking it out there and
        -- putting it in the middle gives that subtree back.
        have htail : eraseKey Span.base temp.base (spans r) = rest := by
          have hsr : Sorted Span.base (spans r) := hr
          rw [hs] at hsr ⊢
          exact eraseKey_middle (l := []) (by simp) (List.pairwise_cons.mp hsr).1
        rw [(rebalanceDelete_same h).1, spans_node, ihr hr hr', htail, hs]
        rfl

theorem avlDelete_ordered (ho : Ordered t) (h : avlDelete base t = some t') : Ordered t' := by
  rw [Ordered, avlDelete_spans ho h]
  exact Sorted.eraseKey ho

theorem avlDelete_addrs (h : avlDelete base t = some t') : (addrs t').Sublist (addrs t) := by
  induction t generalizing base t' with
  | nil =>
    cases h
    exact .refl _
  | node c l r ihl ihr =>
    rw [addrs_node]
    rcases avlDelete_cases h with ⟨-, l', hl', h⟩ | ⟨-, r', hr', h⟩ | ⟨rfl, hd⟩
    · rw [(rebalanceDelete_same h).2.1, addrs_node]
      exact (ihl hl').append (.refl _)
    · rw [(rebalanceDelete_same h).2.1, addrs_node]
      exact List.Sublist.append (.refl _) ((ihr hr').cons_cons _)
    · rcases hd with ⟨rfl, rfl⟩ | ⟨rfl, rfl⟩ | ⟨-, temp, r', -, hr', h⟩
      · simp
      · simp
      · rw [(rebalanceDelete_same h).2.1, addrs_node]
        exact List.Sublist.append (.refl _) ((ihr hr').cons_cons _)

theorem rebalanceDelete_some (hl : Positive l) (hr : Positive r) :
    ∃ t, rebalanceDelete c l r = some t := by
  have hl0 := hl.height_nonneg
  have hr0 := hr.height_nonneg
  simp only [rebalanceDelete]
  split
  · cases l with
    | nil =>
      simp only [height] at *
      omega
    | node lc ll lr => exact ⟨_, rfl⟩
  split
  · cases r with
    | nil =>
      simp only [height] at *
      omega
    | node rc rl rr => exact ⟨_, rfl⟩
  split
  · rename_i h
    cases l with
    | nil => exact absurd h.2 (by simp [getBalance])
    | node lc ll lr =>
      cases lr with
      | nil =>
        have := hl.2.1.height_nonneg
        simp only [getBalance, show height .nil = 0 from rfl] at h
        omega
      | node => exact ⟨_, rfl⟩
  split
  · rename_i h
    cases r with
    | nil => exact absurd h.2 (by simp [getBalance])
    | node rc rl rr =>
      cases rl with
      | nil =>
        have := hr.2.2.height_nonneg
        simp only [getBalance, show height .nil = 0 from rfl] at h
        omega
      | node => exact ⟨_, rfl⟩
  · exact ⟨_, rfl⟩

/-- A deletion never follows a missing child, whatever the stored heights. -/
theorem avlDelete_some (hp : Positive t) (base : Nat) :
    ∃ t', avlDelete base t = some t' ∧ Positive t' := by
  induction t generalizing base with
  | nil => exact ⟨.nil, rfl, trivial⟩
  | node c l r ihl ihr =>
    obtain ⟨hc, hl, hr⟩ := hp
    have rebalanced : ∀ {c' : Cell} {l' r'}, 0 < c'.height → Positive l' → Positive r' →
        ∃ t', rebalanceDelete c' l' r' = some t' ∧ Positive t' := by
      intro c' l' r' hc' hl' hr'
      obtain ⟨t', ht⟩ := rebalanceDelete_some (c := c') hl' hr'
      exact ⟨t', ht, (rebalanceDelete_same ht).2.2 ⟨hc', hl', hr'⟩⟩
    rcases Nat.lt_trichotomy base c.base with hb | rfl | hb
    · obtain ⟨l', hl', hpl⟩ := ihl hl base
      rw [avlDelete, if_pos hb, hl']
      exact rebalanced hc hpl hr
    · rw [avlDelete, if_neg (lt_irrefl _), if_neg (lt_irrefl _)]
      split
      · exact ⟨.nil, rfl, trivial⟩
      · split
        · refine ⟨_, rfl, ?_⟩
          split
          · exact hl
          · exact hr
        · rename_i hn
          obtain ⟨temp, -, hm, -⟩ := findMinBase_spans fun h => hn (.inr h)
          obtain ⟨r', hr', hpr⟩ := ihr hr temp.base
          simp only [hm, hr', Option.bind_eq_bind, Option.bind_some]
          exact rebalanced hc hl hpr
    · obtain ⟨r', hr', hpr⟩ := ihr hr base
      rw [avlDelete, if_neg hb.not_gt, if_pos hb, hr']
      exact rebalanced hc hl hpr

end Shigure.Avl
