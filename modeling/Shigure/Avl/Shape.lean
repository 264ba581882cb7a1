import Mathlib.Algebra.Order.Group.Unbundled.Int
import Shigure.Avl.Contents

/-!
# The shape of the tree

`AvlShape` is what an AVL tree promises: stored heights are real and siblings
differ by at most one. The rotations of `vm.c` do not keep it. `rotate_left`
takes the height of its first node from the wrong child and `rotate_right` that
of its second, so a double rotation around a grandchild that leans right, and
a single right rotation over an even child, store a height that is too small.
`KeepsLevel` names the calls that do neither; along such calls the shape holds.

A stored height that is too small can later send `avl_insert` into a double
rotation on the side the key did not go to, where the inner child may be
missing. `PathLevel` is what an insertion needs to be safe from that.
-/

namespace Shigure.Avl

/-- The height of `c` fits its children and these differ by at most one, all
as stored. -/
def Level (c : Cell) (l r : AvlNode) : Prop :=
  c.height = 1 + max (height l) (height r) ∧
    height l ≤ height r + 1 ∧ height r ≤ height l + 1

def IsAvl : AvlNode → Prop
  | .nil => True
  | .node c l r => Level c l r ∧ IsAvl l ∧ IsAvl r

def AvlShape : AvlNode → Prop
  | .nil => True
  | .node c l r =>
    c.height = (BinaryTree.node c l r).height ∧
      (l.height ≤ r.height + 1 ∧ r.height ≤ l.height + 1) ∧ AvlShape l ∧ AvlShape r

theorem AvlShape.height_eq (h : AvlShape t) : height t = t.height := by
  cases t with
  | nil => rfl
  | node c l r => exact h.1

theorem isAvl_iff : IsAvl t ↔ AvlShape t := by
  induction t with
  | nil => exact Iff.rfl
  | node c l r ihl ihr =>
    simp only [IsAvl, AvlShape, ihl, ihr, Level]
    constructor <;> rintro ⟨h, h'⟩
    · have hl := h'.1.height_eq
      have hr := h'.2.height_eq
      refine ⟨?_, ?_, h'⟩
      · simp only [BinaryTree.height]
        omega
      · omega
    · have hl := h'.2.1.height_eq
      have hr := h'.2.2.height_eq
      simp only [BinaryTree.height] at h
      refine ⟨?_, h'.2⟩
      omega

theorem IsAvl.height_nonneg (h : IsAvl t) : 0 ≤ height t := by
  rw [(isAvl_iff.mp h).height_eq]
  exact Int.natCast_nonneg _

theorem IsAvl.positive (h : IsAvl t) : Positive t := by
  induction t with
  | nil => trivial
  | node c l r ihl ihr =>
    have := h.2.1.height_nonneg
    refine ⟨?_, ihl h.2.1, ihr h.2.2⟩
    have := h.1.1
    omega

theorem ite_gt_eq_max (a b : Int) : (if a > b then a else b) = max a b := by
  split <;> omega

@[simp] theorem height_node : height (.node c l r) = c.height := rfl

@[simp] theorem height_nil : height .nil = 0 := rfl

@[simp] theorem updateHeight_height :
    (updateHeight c l r).height = 1 + max (height l) (height r) := by
  simp only [updateHeight, ite_gt_eq_max]

@[simp] theorem updateHeight_base : (updateHeight c l r).base = c.base := rfl

@[simp] theorem getBalance_node : getBalance (.node c l r) = height l - height r := rfl

@[simp] theorem createNode_height : height (createNode addr base size) = 1 := rfl

-- ---------------------------------------------------------------------------
-- Insertion: the path
-- ---------------------------------------------------------------------------

/-- The search path of `base` is level. Off the path the tree may be anything. -/
def PathLevel (base : Nat) : AvlNode → Prop
  | .nil => True
  | .node c l r =>
    Level c l r ∧
      if base < c.base then PathLevel base l
      else if base > c.base then PathLevel base r else True

theorem IsAvl.path (h : IsAvl t) (base : Nat) : PathLevel base t := by
  induction t with
  | nil => trivial
  | node c l r ihl ihr =>
    refine ⟨h.1, ?_⟩
    split
    · exact ihl h.2.1
    · split
      · exact ihr h.2.2
      · trivial

section
variable {addr base size : Nat}

/-- `t'` is `t` with the new leaf hung below a path of even nodes: one taller
and not rotated. -/
inductive Grown (addr base size : Nat) : AvlNode → AvlNode → Prop
  | leaf : Grown addr base size .nil (createNode addr base size)
  | left {c l l' r} : base < c.base → height l = height r → c.height = 1 + height r →
      Grown addr base size l l' →
      Grown addr base size (.node c l r) (.node (updateHeight c l' r) l' r)
  | right {c l r r'} : c.base < base → height l = height r → c.height = 1 + height l →
      Grown addr base size r r' →
      Grown addr base size (.node c l r) (.node (updateHeight c l r') l r')

theorem Grown.height (h : Grown addr base size t t') : height t' = height t + 1 := by
  induction h with
  | leaf => rfl
  | left _ hlr hc _ ih =>
    simp only [height_node, updateHeight_height]
    omega
  | right _ hlr hc _ ih =>
    simp only [height_node, updateHeight_height]
    omega

theorem Grown.isAvl (h : Grown addr base size t t') (ha : IsAvl t) : IsAvl t' := by
  induction h with
  | leaf => exact ⟨⟨rfl, by decide, by decide⟩, trivial, trivial⟩
  | left _ hlr hc hg ih =>
    have := hg.height
    refine ⟨⟨by simp, ?_, ?_⟩, ih ha.2.1, ha.2.2⟩ <;> omega
  | right _ hlr hc hg ih =>
    have := hg.height
    refine ⟨⟨by simp, ?_, ?_⟩, ha.2.1, ih ha.2.2⟩ <;> omega

/-- The inner grandchild will lean right: the key goes left, right, right. -/
def LeftRightRight (base : Nat) : AvlNode → Prop
  | .node lc _ (.node yc _ _) => lc.base < base ∧ yc.base < base
  | _ => False

/-- The key goes right, left, right. -/
def RightLeftRight (base : Nat) : AvlNode → Prop
  | .node rc (.node xc _ _) _ => base < rc.base ∧ xc.base < base
  | _ => False

theorem Grown.rotate_left (hg : Grown addr base size l l') (hl : Avl.height l = Avl.height r + 1)
    (hr : 0 ≤ Avl.height r) :
    ∃ t, rebalanceInsert base c l' r = some t ∧ Avl.height t = Avl.height r + 2 ∧
      (IsAvl l' → IsAvl r → ¬ LeftRightRight base l → IsAvl t) := by
  have hl' := hg.height
  have hbal : Avl.height l' - Avl.height r > 1 := by omega
  simp only [rebalanceInsert, if_pos hbal]
  cases hg with
  | leaf =>
    simp only [height_nil] at hl
    omega
  | @left lc ll ll' lr hb hlr hlc hg =>
    have := hg.height
    rw [height_node] at hl
    simp only [updateHeight_base, hb, ↓reduceIte]
    refine ⟨_, rfl, ?_, ?_⟩
    · simp only [height_node, updateHeight_height]
      split <;> omega
    · rintro ⟨-, hall, halr⟩ har -
      refine ⟨⟨?_, ?_, ?_⟩, hall, ⟨by simp, ?_, ?_⟩, halr, har⟩ <;>
        (try simp only [height_node, updateHeight_height]) <;> omega
  | @right lc ll lr lr' hb hlr hlc hg =>
    have := hg.height
    rw [height_node] at hl
    simp only [updateHeight_base, gt_iff_lt, hb, hb.not_gt, ↓reduceIte]
    -- The inner grandchild is the new leaf, or has grown to one of its sides;
    -- only the right one leaves a stored height that does not fit.
    cases hg with
    | leaf =>
      rw [height_nil] at hlr
      refine ⟨_, rfl, ?_, ?_⟩
      · simp only [height_node, updateHeight_height, height_nil]
        omega
      · rintro ⟨-, hall, -⟩ har -
        refine ⟨⟨?_, ?_, ?_⟩, ⟨⟨?_, ?_, ?_⟩, hall, trivial⟩, ⟨by simp, ?_, ?_⟩, trivial, har⟩ <;>
          (try simp only [height_node, updateHeight_height, height_nil]) <;> omega
    | @left yc yl yl' yr hby hy hyc hg =>
      have := hg.height
      rw [height_node] at hlr
      refine ⟨_, rfl, ?_, ?_⟩
      · simp only [height_node, updateHeight_height]
        omega
      · rintro ⟨-, hall, -, hayl, hayr⟩ har -
        refine ⟨⟨?_, ?_, ?_⟩, ⟨⟨?_, ?_, ?_⟩, hall, hayl⟩, ⟨by simp, ?_, ?_⟩, hayr, har⟩ <;>
          (try simp only [height_node, updateHeight_height]) <;> omega
    | @right yc yl yr yr' hby hy hyc hg =>
      have := hg.height
      rw [height_node] at hlr
      refine ⟨_, rfl, ?_, ?_⟩
      · simp only [height_node, updateHeight_height]
        omega
      · rintro - - hok
        exact absurd ⟨hb, hby⟩ hok

theorem Grown.rotate_right (hg : Grown addr base size r r') (hr : Avl.height r = Avl.height l + 1)
    (hl : 0 ≤ Avl.height l) :
    ∃ t, rebalanceInsert base c l r' = some t ∧ Avl.height t = Avl.height l + 2 ∧
      (IsAvl l → IsAvl r' → ¬ RightLeftRight base r → IsAvl t) := by
  have hr' := hg.height
  have hleft : ¬ Avl.height l - Avl.height r' > 1 := by omega
  have hbal : Avl.height l - Avl.height r' < -1 := by omega
  simp only [rebalanceInsert, if_neg hleft, if_pos hbal]
  cases hg with
  | leaf =>
    simp only [height_nil] at hr
    omega
  | @right rc rl rr rr' hb hlr hrc hg =>
    have := hg.height
    rw [height_node] at hr
    simp only [updateHeight_base, gt_iff_lt, hb, ↓reduceIte]
    refine ⟨_, rfl, ?_, ?_⟩
    · simp only [height_node, updateHeight_height]
      omega
    · rintro hal ⟨-, harl, harr⟩ -
      refine ⟨⟨by simp, ?_, ?_⟩, ⟨⟨?_, ?_, ?_⟩, hal, harl⟩, harr⟩ <;>
        (try simp only [height_node]) <;> omega
  | @left rc rl rl' rr hb hlr hrc hg =>
    have := hg.height
    rw [height_node] at hr
    simp only [updateHeight_base, gt_iff_lt, hb, hb.not_gt, ↓reduceIte]
    cases hg with
    | leaf =>
      rw [height_nil] at hlr
      refine ⟨_, rfl, ?_, ?_⟩
      · simp only [height_node, updateHeight_height, height_nil]
        omega
      · rintro hal ⟨-, -, harr⟩ -
        refine ⟨⟨by simp, ?_, ?_⟩, ⟨⟨?_, ?_, ?_⟩, hal, trivial⟩, ⟨by simp, ?_, ?_⟩, trivial, harr⟩ <;>
          (try simp only [height_node, updateHeight_height, height_nil]) <;> omega
    | @left xc xl xl' xr hbx hx hxc hg =>
      have := hg.height
      rw [height_node] at hlr
      refine ⟨_, rfl, ?_, ?_⟩
      · simp only [height_node, updateHeight_height]
        omega
      · rintro hal ⟨-, ⟨-, haxl, haxr⟩, harr⟩ -
        refine ⟨⟨by simp, ?_, ?_⟩, ⟨⟨?_, ?_, ?_⟩, hal, haxl⟩, ⟨by simp, ?_, ?_⟩, haxr, harr⟩ <;>
          (try simp only [height_node, updateHeight_height]) <;> omega
    | @right xc xl xr xr' hbx hx hxc hg =>
      have := hg.height
      rw [height_node] at hlr
      refine ⟨_, rfl, ?_, ?_⟩
      · simp only [height_node, updateHeight_height]
        omega
      · rintro - - hok
        exact absurd ⟨hb, hbx⟩ hok

theorem rebalanceInsert_even (hlr : height l ≤ height r + 1) (hrl : height r ≤ height l + 1) :
    rebalanceInsert base c l r = some (.node (updateHeight c l r) l r) := by
  have h1 : ¬ height l - height r > 1 := by omega
  have h2 : ¬ height l - height r < -1 := by omega
  simp only [rebalanceInsert, if_neg h1, if_neg h2]

/-- An insertion of `base` makes the tree taller: the path to its place is even. -/
def Grows (base : Nat) : AvlNode → Prop
  | .nil => True
  | .node c l r =>
    height l = height r ∧
      if base < c.base then Grows base l else if base > c.base then Grows base r else False

theorem Grown.grows (h : Grown addr base size t t') : Grows base t := by
  induction h with
  | leaf => trivial
  | left hb hlr _ _ ih => exact ⟨hlr, by rw [if_pos hb]; exact ih⟩
  | right hb hlr _ _ ih => exact ⟨hlr, by rw [if_neg hb.not_gt, if_pos hb]; exact ih⟩

/-- The insertion of `base` makes no double rotation around a grandchild that
leans right. -/
def InsertLevel (base : Nat) : AvlNode → Prop
  | .nil => True
  | .node c l r =>
    if base < c.base then
      InsertLevel base l ∧ ¬ (Grows base l ∧ height r < height l ∧ LeftRightRight base l)
    else if base > c.base then
      InsertLevel base r ∧ ¬ (Grows base r ∧ height l < height r ∧ RightLeftRight base r)
    else True

/-- Along a level path an insertion completes, and the tree is as tall as
before or has grown at a leaf. -/
theorem insert_go_path (addr size : Nat) (hp : Positive t) (ht : PathLevel base t) :
    ∃ t', avlInsert.go addr base size t = some t' ∧
      (height t' = height t ∨ Grown addr base size t t') ∧
      (IsAvl t → InsertLevel base t → IsAvl t') := by
  induction t with
  | nil => exact ⟨_, rfl, .inr .leaf, fun ha _ => Grown.leaf.isAvl ha⟩
  | node c l r ihl ihr =>
    obtain ⟨hc, hl, hr⟩ := hp
    obtain ⟨⟨hch, hlr, hrl⟩, hpath⟩ := ht
    have hl0 := hl.height_nonneg
    have hr0 := hr.height_nonneg
    simp only [avlInsert.go, InsertLevel]
    split
    · rename_i hb
      rw [if_pos hb] at hpath
      obtain ⟨l', hl', hshape, hi⟩ := ihl hl hpath
      rw [hl', Option.bind_eq_bind, Option.bind_some]
      rcases hshape with heq | hg
      · rw [rebalanceInsert_even (by omega) (by omega)]
        refine ⟨_, rfl, .inl (by simp only [height_node, updateHeight_height]; omega), ?_⟩
        rintro ⟨-, hal, har⟩ ⟨hok, -⟩
        exact ⟨⟨by simp, by omega, by omega⟩, hi hal hok, har⟩
      · have := hg.height
        rcases (show height l < height r ∨ height l = height r ∨ height l = height r + 1 by omega)
          with hlt | heq | hgt
        · rw [rebalanceInsert_even (by omega) (by omega)]
          refine ⟨_, rfl, .inl (by simp only [height_node, updateHeight_height]; omega), ?_⟩
          rintro ⟨-, hal, har⟩ ⟨hok, -⟩
          exact ⟨⟨by simp, by omega, by omega⟩, hi hal hok, har⟩
        · rw [rebalanceInsert_even (by omega) (by omega)]
          have hg' := Grown.left hb heq (by omega) hg
          exact ⟨_, rfl, .inr hg', fun ha _ => hg'.isAvl ha⟩
        · obtain ⟨t', ht', hh, ha⟩ := hg.rotate_left (c := c) hgt hr0
          refine ⟨t', ht', .inl (by rw [height_node]; omega), ?_⟩
          rintro ⟨-, hal, har⟩ ⟨-, hok⟩
          exact ha (hg.isAvl hal) har fun h => hok ⟨hg.grows, by omega, h⟩
    · rename_i hb
      rw [if_neg hb] at hpath
      split
      · rename_i hb
        rw [if_pos hb] at hpath
        obtain ⟨r', hr', hshape, hi⟩ := ihr hr hpath
        rw [hr', Option.bind_eq_bind, Option.bind_some]
        rcases hshape with heq | hg
        · rw [rebalanceInsert_even (by omega) (by omega)]
          refine ⟨_, rfl, .inl (by simp only [height_node, updateHeight_height]; omega), ?_⟩
          rintro ⟨-, hal, har⟩ ⟨hok, -⟩
          exact ⟨⟨by simp, by omega, by omega⟩, hal, hi har hok⟩
        · have := hg.height
          rcases (show height r < height l ∨ height l = height r ∨ height r = height l + 1 by omega)
            with hlt | heq | hgt
          · rw [rebalanceInsert_even (by omega) (by omega)]
            refine ⟨_, rfl, .inl (by simp only [height_node, updateHeight_height]; omega), ?_⟩
            rintro ⟨-, hal, har⟩ ⟨hok, -⟩
            exact ⟨⟨by simp, by omega, by omega⟩, hal, hi har hok⟩
          · rw [rebalanceInsert_even (by omega) (by omega)]
            have hg' := Grown.right hb heq (by omega) hg
            exact ⟨_, rfl, .inr hg', fun ha _ => hg'.isAvl ha⟩
          · obtain ⟨t', ht', hh, ha⟩ := hg.rotate_right (c := c) hgt hl0
            refine ⟨t', ht', .inl (by rw [height_node]; omega), ?_⟩
            rintro ⟨-, hal, har⟩ ⟨-, hok⟩
            exact ha hal (hg.isAvl har) fun h => hok ⟨hg.grows, by omega, h⟩
      · exact ⟨_, rfl, .inl rfl, fun ha _ => ha⟩

end

-- ---------------------------------------------------------------------------
-- Deletion
-- ---------------------------------------------------------------------------

/-- The rotation over a right child of two more is exact: no double rotation
around a grandchild that leans right. -/
def RightExact (r : AvlNode) : Prop := ¬ (getBalance r > 0 ∧ getBalance r.left < 0)

/-- The same on the left, where the child must not be even either. -/
def LeftExact (l : AvlNode) : Prop :=
  getBalance l ≠ 0 ∧ ¬ (getBalance l < 0 ∧ getBalance l.right < 0)

theorem rebalanceDelete_even (hlr : height l ≤ height r + 1) (hrl : height r ≤ height l + 1) :
    rebalanceDelete c l r = some (.node (updateHeight c l r) l r) := by
  have h1 : ¬ height l - height r > 1 := by omega
  have h2 : ¬ height l - height r < -1 := by omega
  simp only [rebalanceDelete, h1, h2, false_and, ↓reduceIte]

theorem rebalanceDelete_right_tall (hl : IsAvl l) (hr : IsAvl r) (h : height r = height l + 2)
    (hok : RightExact r) :
    ∃ t, rebalanceDelete c l r = some t ∧ IsAvl t ∧
      height t = if getBalance r = 0 then height r + 1 else height r := by
  have hl0 := hl.height_nonneg
  have h1 : ¬ height l - height r > 1 := by omega
  have h2 : height l - height r < -1 := by omega
  simp only [rebalanceDelete, h1, h2, false_and, true_and, ↓reduceIte]
  cases r with
  | nil =>
    simp only [height_nil] at h
    omega
  | node rc rl rr =>
    obtain ⟨⟨hrc, hrlr, hrrl⟩, harl, harr⟩ := hr
    by_cases hb : getBalance (.node rc rl rr) ≤ 0
    · rw [if_pos hb]
      simp only [getBalance_node, height_node] at *
      refine ⟨_, rfl, ⟨⟨by simp, ?_, ?_⟩, ⟨⟨?_, ?_, ?_⟩, hl, harl⟩, harr⟩, ?_⟩ <;>
        (try simp only [height_node, updateHeight_height]) <;> omega
    · rw [if_neg hb, if_pos (by omega)]
      cases rl with
      | nil =>
        have := harr.height_nonneg
        simp only [getBalance_node, height_nil] at *
        omega
      | node xc xl xr =>
        obtain ⟨⟨hxc, hxlr, hxrl⟩, haxl, haxr⟩ := harl
        simp only [getBalance_node, height_node, RightExact, BinaryTree.left] at *
        refine ⟨_, rfl, ⟨⟨by simp, ?_, ?_⟩, ⟨⟨?_, ?_, ?_⟩, hl, haxl⟩, ⟨by simp, ?_, ?_⟩, haxr, harr⟩,
          ?_⟩ <;>
          (try simp only [height_node, updateHeight_height]) <;> omega

theorem rebalanceDelete_left_tall (hl : IsAvl l) (hr : IsAvl r) (h : height l = height r + 2)
    (hok : LeftExact l) :
    ∃ t, rebalanceDelete c l r = some t ∧ IsAvl t ∧ height t = height l := by
  have hr0 := hr.height_nonneg
  have h1 : height l - height r > 1 := by omega
  have h2 : ¬ height l - height r < -1 := by omega
  simp only [rebalanceDelete, h1, h2, false_and, true_and, ↓reduceIte]
  cases l with
  | nil =>
    simp only [height_nil] at h
    omega
  | node lc ll lr =>
    obtain ⟨⟨hlc, hllr, hlrl⟩, hall, halr⟩ := hl
    by_cases hb : getBalance (.node lc ll lr) ≥ 0
    · rw [if_pos hb]
      simp only [getBalance_node, height_node, LeftExact] at *
      refine ⟨_, rfl, ⟨⟨?_, ?_, ?_⟩, hall, ⟨by simp, ?_, ?_⟩, halr, hr⟩, ?_⟩ <;>
        (try simp only [height_node, updateHeight_height]) <;> omega
    · rw [if_neg hb, if_pos (by omega)]
      cases lr with
      | nil =>
        have := hall.height_nonneg
        simp only [getBalance_node, height_nil] at *
        omega
      | node yc yl yr =>
        obtain ⟨⟨hyc, hylr, hyrl⟩, hayl, hayr⟩ := halr
        simp only [getBalance_node, height_node, LeftExact, BinaryTree.right] at *
        refine ⟨_, rfl, ⟨⟨?_, ?_, ?_⟩, ⟨⟨?_, ?_, ?_⟩, hall, hayl⟩, ⟨by simp, ?_, ?_⟩, hayr, hr⟩,
          ?_⟩ <;>
          (try simp only [height_node, updateHeight_height]) <;> omega

def Shrinks (base : Nat) : AvlNode → Prop
  | .nil => False
  | .node c l r =>
    if base < c.base then
      Shrinks base l ∧ (height r < height l ∨ (height l < height r ∧ getBalance r ≠ 0))
    else if base > c.base then
      Shrinks base r ∧ (height l < height r ∨ (height r < height l ∧ getBalance l ≠ 0))
    else if l = .nil ∨ r = .nil then True
    else
      match findMinBase r with
      | some temp =>
        Shrinks temp.base r ∧ (height l < height r ∨ (height r < height l ∧ getBalance l ≠ 0))
      | none => False

/-- Every rotation that the deletion of `base` makes is exact. -/
def DeleteLevel (base : Nat) : AvlNode → Prop
  | .nil => True
  | .node c l r =>
    if base < c.base then
      DeleteLevel base l ∧ (Shrinks base l → height l < height r → RightExact r)
    else if base > c.base then
      DeleteLevel base r ∧ (Shrinks base r → height r < height l → LeftExact l)
    else if l = .nil ∨ r = .nil then True
    else
      match findMinBase r with
      | some temp =>
        DeleteLevel temp.base r ∧ (Shrinks temp.base r → height r < height l → LeftExact l)
      | none => True

theorem rebalanceDelete_left (hc : Level c l r) (hl' : IsAvl l') (hr : IsAvl r)
    (hh : (¬ s ∧ height l' = height l) ∨ (s ∧ height l' = height l - 1))
    (hok : s → height l < height r → RightExact r) :
    let s' := s ∧ (height r < height l ∨ (height l < height r ∧ getBalance r ≠ 0))
    ∃ t', rebalanceDelete c l' r = some t' ∧ IsAvl t' ∧
      ((¬ s' ∧ height t' = c.height) ∨ (s' ∧ height t' = c.height - 1)) := by
  obtain ⟨hch, hlr, hrl⟩ := hc
  intro s'
  rcases hh with ⟨hs, hh⟩ | ⟨hs, hh⟩
  · rw [rebalanceDelete_even (by omega) (by omega)]
    refine ⟨_, rfl, ⟨⟨by simp, by omega, by omega⟩, hl', hr⟩, .inl ⟨fun h => hs h.1, ?_⟩⟩
    simp only [height_node, updateHeight_height]
    omega
  · simp only [s', hs, true_and]
    by_cases htall : height l < height r
    · obtain ⟨t', ht', ha, hh'⟩ := rebalanceDelete_right_tall (c := c) hl' hr (by omega)
        (hok hs htall)
      refine ⟨t', ht', ha, ?_⟩
      split at hh' <;> omega
    · rw [rebalanceDelete_even (by omega) (by omega)]
      refine ⟨_, rfl, ⟨⟨by simp, by omega, by omega⟩, hl', hr⟩, ?_⟩
      simp only [height_node, updateHeight_height]
      omega

theorem rebalanceDelete_right (hc : Level c l r) (hl : IsAvl l) (hr' : IsAvl r')
    (hh : (¬ s ∧ height r' = height r) ∨ (s ∧ height r' = height r - 1))
    (hok : s → height r < height l → LeftExact l) :
    let s' := s ∧ (height l < height r ∨ (height r < height l ∧ getBalance l ≠ 0))
    ∃ t', rebalanceDelete c l r' = some t' ∧ IsAvl t' ∧
      ((¬ s' ∧ height t' = c.height) ∨ (s' ∧ height t' = c.height - 1)) := by
  obtain ⟨hch, hlr, hrl⟩ := hc
  intro s'
  rcases hh with ⟨hs, hh⟩ | ⟨hs, hh⟩
  · rw [rebalanceDelete_even (by omega) (by omega)]
    refine ⟨_, rfl, ⟨⟨by simp, by omega, by omega⟩, hl, hr'⟩, .inl ⟨fun h => hs h.1, ?_⟩⟩
    simp only [height_node, updateHeight_height]
    omega
  · simp only [s', hs, true_and]
    by_cases htall : height r < height l
    · have hexact := hok hs htall
      obtain ⟨t', ht', ha, hh'⟩ := rebalanceDelete_left_tall (c := c) hl hr' (by omega) hexact
      exact ⟨t', ht', ha, .inr ⟨.inr ⟨htall, hexact.1⟩, by omega⟩⟩
    · rw [rebalanceDelete_even (by omega) (by omega)]
      refine ⟨_, rfl, ⟨⟨by simp, by omega, by omega⟩, hl, hr'⟩, ?_⟩
      simp only [height_node, updateHeight_height]
      omega

/-- A deletion whose rotations are all exact keeps an AVL tree. -/
theorem avlDelete_isAvl (ha : IsAvl t) (hok : DeleteLevel base t) :
    ∃ t', avlDelete base t = some t' ∧ IsAvl t' ∧
      ((¬ Shrinks base t ∧ height t' = height t) ∨
        (Shrinks base t ∧ height t' = height t - 1)) := by
  induction t generalizing base with
  | nil => exact ⟨.nil, rfl, trivial, .inl ⟨id, rfl⟩⟩
  | node c l r ihl ihr =>
    obtain ⟨hc, hal, har⟩ := ha
    simp only [DeleteLevel, Shrinks, avlDelete, height_node] at hok ⊢
    rcases Nat.lt_trichotomy base c.base with hb | hb | hb
    · simp only [if_pos hb] at hok ⊢
      obtain ⟨l', hl', hal', hh⟩ := ihl hal hok.1
      rw [hl', Option.bind_eq_bind, Option.bind_some]
      exact rebalanceDelete_left hc hal' har hh hok.2
    · have h1 : ¬ base < c.base := by omega
      have h2 : ¬ base > c.base := by omega
      simp only [if_neg h1, if_neg h2] at hok ⊢
      obtain ⟨hch, hlr, hrl⟩ := hc
      have hl0 := hal.height_nonneg
      have hr0 := har.height_nonneg
      split
      · rename_i hn
        obtain ⟨rfl, rfl⟩ := hn
        exact ⟨.nil, rfl, trivial, .inr ⟨by simp, by simp only [height_nil] at *; omega⟩⟩
      · split
        · rename_i hn
          -- The only child is a leaf, and takes the node's place.
          refine ⟨_, rfl, ?_, .inr ⟨trivial, ?_⟩⟩
          · split
            · exact hal
            · exact har
          · rcases hn with rfl | rfl
            · simp only [ne_eq, not_true_eq_false, if_false, height_nil] at *
              omega
            · split
              · simp only [height_nil] at *
                omega
              · rename_i hl
                simp only [ne_eq, not_not] at hl
                subst hl
                simp only [height_nil] at *
                omega
        · rename_i hn
          obtain ⟨temp, -, hm, -⟩ := findMinBase_spans fun h => hn (.inr h)
          rw [if_neg hn] at hok
          simp only [hm, Option.bind_eq_bind, Option.bind_some] at hok ⊢
          obtain ⟨r', hr', har', hh⟩ := ihr har hok.1
          rw [hr', Option.bind_some]
          exact rebalanceDelete_right (c := { c with base := temp.base, size := temp.size })
            ⟨hch, hlr, hrl⟩ hal har' hh hok.2
    · simp only [if_neg hb.not_gt, if_pos hb] at hok ⊢
      obtain ⟨r', hr', har', hh⟩ := ihr har hok.1
      rw [hr', Option.bind_eq_bind, Option.bind_some]
      exact rebalanceDelete_right hc hal har' hh hok.2

end Shigure.Avl
