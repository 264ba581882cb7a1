import Mathlib.Data.List.Nodup
import Mathlib.Data.List.Perm.Subperm
import Shigure.Avl.Links
import Shigure.Vm.KHeap

/-!
# Trees in memory

`Stored m t` says that the memory `m` holds the tree `t`: every node of it is
where its address says, with the fields of its cell and the addresses of its
children. The nodes do not overlap, so a write to one of them leaves the others
as they are, and the rotations in memory are those of the tree.
-/

namespace Shigure.Vm.KHeap

open Avl (Cell addrs Positive Bounded)

section
variable {m m' m'' : Mem} {p q v : Nat} {as bs : List Nat}

-- ---------------------------------------------------------------------------
-- Single nodes
-- ---------------------------------------------------------------------------

def Clear (p q : Nat) : Prop := p + nodeSize ≤ q ∨ q + nodeSize ≤ p

theorem Clear.symm (h : Clear p q) : Clear q p := Or.symm h

/-- Nothing has changed but bytes of the nodes `as`. -/
def Only (as : List Nat) (m m' : Mem) : Prop :=
  ∀ x, (∀ a ∈ as, x < a ∨ a + nodeSize ≤ x) → m' x = m x

theorem Only.refl (as : List Nat) (m : Mem) : Only as m m := fun _ _ => rfl

theorem Only.trans (h : Only as m m') (h' : Only as m' m'') : Only as m m'' := fun x hx =>
  (h' x hx).trans (h x hx)

theorem Only.mono (h : Only as m m') (hs : as ⊆ bs) : Only bs m m' := fun x hx =>
  h x fun a ha => hx a (hs ha)

theorem load_congr (h : ∀ x, p ≤ x → x < p + nodeSize → m' x = m x) : load m' p = load m p := by
  simp only [nodeSize] at h
  simp only [load]
  rw [Mem.read32_congr fun x h1 h2 => h x h1 (by omega),
    Mem.read32_congr fun x h1 h2 => h x (by omega) (by omega),
    Mem.read32_congr fun x h1 h2 => h x (by omega) (by omega),
    Mem.read32_congr fun x h1 h2 => h x (by omega) (by omega),
    Mem.read32_congr fun x h1 h2 => h x (by omega) (by omega)]

theorem Only.load (h : Only as m m') (hc : ∀ a ∈ as, Clear a p) : load m' p = load m p := by
  refine load_congr fun x h1 h2 => h x fun a ha => ?_
  have := hc a ha
  simp only [Clear] at this
  omega

theorem write32_only (hk : k + 4 ≤ nodeSize) : Only [p] m (m.write32 (p + k) v) := by
  intro x hx
  have := hx p (by simp)
  exact Mem.write32_outside m (by omega)

theorem load_setBase (hv : v < 2 ^ 32) : load (setBase m p v) p = { load m p with base := v } := by
  simp only [load, setBase, Mem.read32_write32 m p hv]
  rw [Mem.read32_write32_apart _ (by omega), Mem.read32_write32_apart _ (by omega),
    Mem.read32_write32_apart _ (by omega), Mem.read32_write32_apart _ (by omega)]

theorem load_setSize (hv : v < 2 ^ 32) : load (setSize m p v) p = { load m p with size := v } := by
  simp only [load, setSize, Mem.read32_write32 m (p + 4) hv]
  rw [Mem.read32_write32_apart _ (by omega), Mem.read32_write32_apart _ (by omega),
    Mem.read32_write32_apart _ (by omega), Mem.read32_write32_apart _ (by omega)]

theorem load_setHeight {h : Int} (h0 : 0 ≤ h) (h1 : h < 2 ^ 31) :
    load (setHeight m p h) p = { load m p with height := h } := by
  simp only [load, setHeight, Mem.read32_write32 m (p + 8) (wordOfInt_lt h),
    intOfWord_wordOfInt h0 h1]
  rw [Mem.read32_write32_apart _ (by omega), Mem.read32_write32_apart _ (by omega),
    Mem.read32_write32_apart _ (by omega), Mem.read32_write32_apart _ (by omega)]

theorem load_setLeft (hv : v < 2 ^ 32) : load (setLeft m p v) p = { load m p with left := v } := by
  simp only [load, setLeft, Mem.read32_write32 m (p + 12) hv]
  rw [Mem.read32_write32_apart _ (by omega), Mem.read32_write32_apart _ (by omega),
    Mem.read32_write32_apart _ (by omega), Mem.read32_write32_apart _ (by omega)]

theorem load_setRight (hv : v < 2 ^ 32) :
    load (setRight m p v) p = { load m p with right := v } := by
  simp only [load, setRight, Mem.read32_write32 m (p + 16) hv]
  rw [Mem.read32_write32_apart _ (by omega), Mem.read32_write32_apart _ (by omega),
    Mem.read32_write32_apart _ (by omega), Mem.read32_write32_apart _ (by omega)]

theorem setBase_only : Only [p] m (setBase m p v) := write32_only (k := 0) (by decide)

theorem setSize_only : Only [p] m (setSize m p v) := write32_only (by decide)

theorem setHeight_only {h : Int} : Only [p] m (setHeight m p h) := write32_only (by decide)

theorem setLeft_only : Only [p] m (setLeft m p v) := write32_only (by decide)

theorem setRight_only : Only [p] m (setRight m p v) := write32_only (by decide)

theorem updateHeight_only : Only [p] m (updateHeight m p) := setHeight_only

-- ---------------------------------------------------------------------------
-- Trees
-- ---------------------------------------------------------------------------

/-- Addresses that can hold nodes side by side: none at `NULL`. -/
structure Store (as : List Nat) : Prop where
  low : ∀ a ∈ as, nodeSize ≤ a
  high : ∀ a ∈ as, a + nodeSize ≤ wordSize
  clear : ∀ a ∈ as, ∀ b ∈ as, a ≠ b → Clear a b
  nodup : as.Nodup

theorem Store.of_subset (h : Store bs) (hs : as ⊆ bs) (hn : as.Nodup) : Store as :=
  ⟨fun a ha => h.low a (hs ha), fun a ha => h.high a (hs ha),
    fun a ha b hb => h.clear a (hs ha) b (hs hb), hn⟩

theorem Store.sublist (h : Store bs) (hs : as.Sublist bs) : Store as :=
  h.of_subset hs.subset (hs.nodup h.nodup)

theorem Store.perm (h : Store bs) (hp : as.Perm bs) : Store as :=
  h.of_subset hp.subset (hp.nodup_iff.mpr h.nodup)

theorem Store.cons (h : Store as) (hlow : nodeSize ≤ p) (hhigh : p + nodeSize ≤ wordSize)
    (hc : ∀ a ∈ as, Clear p a) : Store (p :: as) := by
  refine ⟨?_, ?_, ?_, List.nodup_cons.mpr ⟨fun hp => ?_, h.nodup⟩⟩
  · simpa using ⟨hlow, h.low⟩
  · simpa using ⟨hhigh, h.high⟩
  · intro a ha b hb hne
    rcases List.mem_cons.mp ha with rfl | ha' <;> rcases List.mem_cons.mp hb with rfl | hb'
    · exact absurd rfl hne
    · exact hc b hb'
    · exact (hc a ha').symm
    · exact h.clear a ha' b hb' hne
  · have := hc p hp
    simp only [Clear, nodeSize] at this
    omega

/-- There is not room for more nodes than an `int` can count. -/
theorem Store.length_lt (h : Store as) : as.length < 2 ^ 31 := by
  have hn : (as.map (· / nodeSize)).Nodup := by
    refine (List.nodup_map_iff_inj_on h.nodup).mpr fun a ha b hb he => ?_
    by_contra hne
    have := h.clear a ha b hb hne
    simp only [Clear, nodeSize] at *
    omega
  have hsub : as.map (· / nodeSize) ⊆ List.range (wordSize / nodeSize) := by
    intro x hx
    obtain ⟨a, ha, rfl⟩ := List.mem_map.mp hx
    have := h.high a ha
    simp only [List.mem_range, nodeSize, wordSize] at *
    omega
  have hle := (hn.subperm hsub).length_le
  simp only [List.length_map, List.length_range, nodeSize, wordSize] at hle
  omega

def ptr : Avl.AvlNode → Nat
  | .nil => 0
  | .node c _ _ => c.addr

def Rep (m : Mem) : Avl.AvlNode → Prop
  | .nil => True
  | .node c l r => load m c.addr = ⟨c.base, c.size, c.height, ptr l, ptr r⟩ ∧ Rep m l ∧ Rep m r

structure Stored (m : Mem) (t : Avl.AvlNode) : Prop where
  rep : Rep m t
  positive : Positive t
  bounded : Bounded t
  store : Store (addrs t)

variable {t t' l r l' r' : Avl.AvlNode} {c : Cell}

theorem Rep.congr (h : Rep m t) (hm : ∀ a ∈ addrs t, load m' a = load m a) : Rep m' t := by
  induction t with
  | nil => trivial
  | node c l r ihl ihr =>
    obtain ⟨hc, hl, hr⟩ := h
    refine ⟨(hm c.addr (by simp)).trans hc, ihl hl fun a ha => hm a (by simp [ha]),
      ihr hr fun a ha => hm a (by simp [ha])⟩

theorem Rep.only (h : Rep m t) (ho : Only as m m') (hc : ∀ p ∈ addrs t, ∀ a ∈ as, Clear a p) :
    Rep m' t := h.congr fun p hp => ho.load (hc p hp)

theorem Rep.cell (h : Rep m t) (hc : c ∈ inorder t) :
    (load m c.addr).base = c.base ∧ (load m c.addr).size = c.size := by
  induction t with
  | nil => cases hc
  | node d l r ihl ihr =>
    obtain ⟨hd, hl, hr⟩ := h
    rcases List.mem_append.mp hc with hc | hc
    · exact ihl hl hc
    · rcases List.mem_cons.mp hc with rfl | hc
      · rw [hd]
        exact ⟨rfl, rfl⟩
      · exact ihr hr hc

theorem Store.node (h : Store (addrs (.node c l r))) : Store (addrs l) ∧ Store (addrs r) ∧
    (∀ a ∈ addrs l, Clear c.addr a) ∧ (∀ a ∈ addrs r, Clear c.addr a) ∧
    ∀ a ∈ addrs l, ∀ b ∈ addrs r, Clear a b := by
  have hn := h.nodup
  rw [Avl.addrs_node] at h hn
  obtain ⟨-, hn', hdis⟩ := List.nodup_append.mp hn
  have hcr := (List.nodup_cons.mp hn').1
  refine ⟨h.sublist (List.sublist_append_left _ _),
    h.sublist ((List.sublist_cons_self _ _).trans (List.sublist_append_right _ _)),
    fun a ha => ?_, fun a ha => ?_, fun a ha b hb => ?_⟩
  · exact h.clear _ (by simp) _ (by simp [ha]) fun he => hdis a ha c.addr (by simp) he.symm
  · exact h.clear _ (by simp) _ (by simp [ha]) fun he => hcr (he ▸ ha)
  · exact h.clear _ (by simp [ha]) _ (by simp [hb]) (hdis a ha b (by simp [hb]))

theorem Store.head (h : Store (addrs (.node c l r))) : c.addr ≠ 0 ∧ c.addr < 2 ^ 32 := by
  have h1 := h.low c.addr (by simp)
  have h2 := h.high c.addr (by simp)
  simp only [nodeSize, wordSize] at *
  omega

theorem ptr_lt (h : Store (addrs t)) : ptr t < 2 ^ 32 := by
  cases t with
  | nil => simp [ptr]
  | node c l r => exact h.head.2

theorem ptr_eq_zero (h : Store (addrs t)) : ptr t = 0 ↔ t = .nil := by
  cases t with
  | nil => simp [ptr]
  | node c l r => simp [ptr, h.head.1]

@[simp] theorem ptr_nil : ptr .nil = 0 := rfl

@[simp] theorem ptr_node : ptr (.node c l r) = c.addr := rfl

theorem height_ptr (h : Rep m t) (hs : Store (addrs t)) : height m (ptr t) = Avl.height t := by
  cases t with
  | nil => rfl
  | node c l r =>
    rw [height, if_pos (by exact hs.head.1), ptr_node, h.1]
    rfl

theorem getBalance_ptr (h : Rep m t) (hs : Store (addrs t)) :
    getBalance m (ptr t) = Avl.getBalance t := by
  cases t with
  | nil => rfl
  | node c l r =>
    obtain ⟨hl, hr, -⟩ := hs.node
    rw [getBalance, if_pos (by exact hs.head.1), ptr_node, h.1, height_ptr h.2.1 hl,
      height_ptr h.2.2 hr]
    rfl

theorem Stored.nil (m : Mem) : Stored m .nil :=
  ⟨trivial, trivial, trivial, by simp, by simp, by simp, by simp⟩

theorem Stored.only (h : Stored m t) (ho : Only as m m')
    (hc : ∀ p ∈ addrs t, ∀ a ∈ as, Clear a p) : Stored m' t :=
  ⟨h.rep.only ho hc, h.positive, h.bounded, h.store⟩

-- ---------------------------------------------------------------------------
-- A node whose height has not been brought up to date
-- ---------------------------------------------------------------------------

structure Half (m : Mem) (c : Cell) (l r : Avl.AvlNode) : Prop where
  node : load m c.addr = ⟨c.base, c.size, c.height, ptr l, ptr r⟩
  positive : 0 < c.height
  left : Stored m l
  right : Stored m r
  store : Store (addrs (.node c l r))

theorem Stored.half (h : Stored m (.node c l r)) : Half m c l r := by
  obtain ⟨hl, hr, -⟩ := h.store.node
  exact ⟨h.rep.1, h.positive.1, ⟨h.rep.2.1, h.positive.2.1, h.bounded.2.1, hl⟩,
    ⟨h.rep.2.2, h.positive.2.2, h.bounded.2.2, hr⟩, h.store⟩

theorem Half.stored (h : Half m c l r) (hb : Bounded (.node c l r)) : Stored m (.node c l r) :=
  ⟨⟨h.node, h.left.rep, h.right.rep⟩, ⟨h.positive, h.left.positive, h.right.positive⟩, hb, h.store⟩

theorem Half.write (h : Half m c l r) (ho : Only [c.addr] m m') (ha : c'.addr = c.addr)
    (hn : load m' c.addr = ⟨c'.base, c'.size, c'.height, ptr l, ptr r⟩) (hp : 0 < c'.height) :
    Half m' c' l r := by
  obtain ⟨-, -, hcl, hcr, -⟩ := h.store.node
  refine ⟨ha ▸ hn, hp, h.left.only ho (by simpa using hcl), h.right.only ho (by simpa using hcr), ?_⟩
  have hs := h.store
  rwa [Avl.addrs_node, ← ha, ← Avl.addrs_node] at hs

theorem Half.updated (h : Half m c l r) :
    Stored (updateHeight m c.addr) (.node (Avl.updateHeight c l r) l r) := by
  have hp := h.left.positive.update (c := c) h.right.positive
  have hb := h.left.bounded.update (c := c) h.right.bounded
  have hlen : (addrs (.node (Avl.updateHeight c l r) l r)).length < 2 ^ 31 := by
    rw [Avl.addrs_length_node, ← Avl.addrs_length_node (c := c)]
    exact h.store.length_lt
  have hle := hb.height_le
  have hm : updateHeight m c.addr = setHeight m c.addr (Avl.updateHeight c l r).height := by
    rw [updateHeight, h.node, height_ptr h.left.rep h.left.store,
      height_ptr h.right.rep h.right.store]
    rfl
  have hhalf : Half (updateHeight m c.addr) (Avl.updateHeight c l r) l r := by
    refine h.write updateHeight_only rfl ?_ hp.1
    rw [hm, load_setHeight hp.1.le (lt_of_le_of_lt hle (by exact_mod_cast hlen)), h.node]
    rfl
  exact hhalf.stored hb

-- ---------------------------------------------------------------------------
-- Rotations
-- ---------------------------------------------------------------------------

/-- The code and the tree operation both fail, or the code leaves the resulting
tree in memory, having written to nodes of it only. -/
def Simulates (m : Mem) (x : Option (Mem × Nat)) (y : Option Avl.AvlNode) : Prop :=
  (x = none ∧ y = none) ∨
    ∃ m' t, x = some (m', ptr t) ∧ y = some t ∧ Stored m' t ∧ Only (addrs t) m m'

theorem Half.rotateRight (h : Half m c l r) :
    Simulates m (rotateRight m c.addr) (Avl.rotateRight (.node c l r)) := by
  cases l with
  | nil =>
    refine .inl ⟨?_, rfl⟩
    rw [KHeap.rotateRight, h.node]
    rfl
  | node x xl t2 =>
    have hx := h.left.rep.1
    obtain ⟨-, -, hcx, hcr, hlr⟩ := h.store.node
    obtain ⟨-, -, hxl, ht2, hl2⟩ := h.left.store.node
    simp only [Avl.addrs_node, List.mem_append, List.mem_cons] at hcx hlr
    have hyx : Clear c.addr x.addr := hcx x.addr (by simp)
    obtain ⟨m2, hm2⟩ : ∃ m2, m2 = setLeft (setRight m x.addr c.addr) c.addr (ptr t2) := ⟨_, rfl⟩
    have ho2 : Only [x.addr, c.addr] m m2 := by
      rw [hm2]
      exact (setRight_only.mono (by simp)).trans (setLeft_only.mono (by simp))
    have hx2 : load m2 x.addr = ⟨x.base, x.size, x.height, ptr xl, c.addr⟩ := by
      rw [hm2, setLeft_only.load (by simpa using hyx), load_setRight h.store.head.2, hx]
    have hy2 : Half m2 c t2 r := by
      refine ⟨?_, h.positive, ?_, ?_, ?_⟩
      · rw [hm2, load_setLeft (ptr_lt h.left.half.right.store),
          setRight_only.load (by simpa using hyx.symm), h.node]
      · refine h.left.half.right.only ho2 fun p hp a ha => ?_
        rcases List.mem_pair.mp ha with rfl | rfl
        · exact ht2 p hp
        · exact hcx p (by simp [hp])
      · refine h.right.only ho2 fun p hp a ha => ?_
        rcases List.mem_pair.mp ha with rfl | rfl
        · exact hlr _ (by simp) p hp
        · exact hcr p hp
      · refine h.store.sublist ?_
        simp
    obtain ⟨m3, hm3⟩ : ∃ m3, m3 = updateHeight m2 c.addr := ⟨_, rfl⟩
    have ho3 : Only [c.addr] m2 m3 := hm3 ▸ updateHeight_only
    have hy3 : Stored m3 (.node (Avl.updateHeight c t2 r) t2 r) := hm3 ▸ hy2.updated
    have hx3 : Half m3 x xl (.node (Avl.updateHeight c t2 r) t2 r) := by
      refine ⟨?_, h.left.positive.1, ?_, hy3, ?_⟩
      · rw [ho3.load (by simpa using hyx), hx2]
        rfl
      · refine h.left.half.left.only (ho2.trans (ho3.mono (by simp))) fun p hp a ha => ?_
        rcases List.mem_pair.mp ha with rfl | rfl
        · exact hxl p hp
        · exact hcx p (by simp [hp])
      · simpa using h.store
    have ht : Avl.rotateRight (.node c (.node x xl t2) r) = some (.node { x with
        height := 1 + if Avl.height xl > Avl.height r then Avl.height xl
          else Avl.height (.node (Avl.updateHeight c t2 r) t2 r) } xl
      (.node (Avl.updateHeight c t2 r) t2 r)) := rfl
    have hpos := (Avl.rotateRight_same ht).2.2 ⟨h.positive, h.left.positive, h.right.positive⟩
    have hbound := Avl.rotateRight_bounded h.left.bounded h.right.bounded ht
    have hcode : KHeap.rotateRight m c.addr = some (setHeight m3 x.addr
        (1 + if Avl.height xl > Avl.height r then Avl.height xl
          else Avl.height (.node (Avl.updateHeight c t2 r) t2 r)), x.addr) := by
      rw [KHeap.rotateRight, h.node, ptr_node]
      dsimp only
      rw [if_neg h.left.store.head.1, hx, ← hm2, ← hm3, hx3.node,
        show load m3 c.addr = _ from hy3.rep.1, height_ptr hx3.left.rep hx3.left.store,
        height_ptr hy3.half.right.rep h.right.store, height_ptr hy3.rep hy3.store]
    rw [hcode, ht]
    generalize (1 + if Avl.height xl > Avl.height r then Avl.height xl
      else Avl.height (.node (Avl.updateHeight c t2 r) t2 r)) = k at *
    have hlt : k < 2 ^ 31 := lt_of_le_of_lt hbound.height_le (by
      have := h.store.length_lt
      simp only [Avl.addrs_length_node] at this ⊢
      omega)
    have hx4 : Half (setHeight m3 x.addr k) { x with height := k } xl
        (.node (Avl.updateHeight c t2 r) t2 r) := by
      refine hx3.write setHeight_only rfl ?_ hpos.1
      rw [load_setHeight hpos.1.le hlt, hx3.node]
    refine .inr ⟨_, _, rfl, rfl, hx4.stored hbound, ?_⟩
    exact ((ho2.mono (by simp)).trans (ho3.mono (by simp))).trans (setHeight_only.mono (by simp))

theorem Half.rotateLeft (h : Half m c l r) :
    Simulates m (rotateLeft m c.addr) (Avl.rotateLeft (.node c l r)) := by
  cases r with
  | nil =>
    refine .inl ⟨?_, rfl⟩
    rw [KHeap.rotateLeft, h.node]
    rfl
  | node y t2 yr =>
    have hy := h.right.rep.1
    obtain ⟨-, -, hcl, hcy, hlr⟩ := h.store.node
    obtain ⟨-, -, hyt2, hyr, h2r⟩ := h.right.store.node
    simp only [Avl.addrs_node, List.mem_append, List.mem_cons] at hcy hlr
    have hxy : Clear c.addr y.addr := hcy y.addr (by simp)
    obtain ⟨m2, hm2⟩ : ∃ m2, m2 = setRight (setLeft m y.addr c.addr) c.addr (ptr t2) := ⟨_, rfl⟩
    have ho2 : Only [y.addr, c.addr] m m2 := by
      rw [hm2]
      exact (setLeft_only.mono (by simp)).trans (setRight_only.mono (by simp))
    have hy2 : load m2 y.addr = ⟨y.base, y.size, y.height, c.addr, ptr yr⟩ := by
      rw [hm2, setRight_only.load (by simpa using hxy), load_setLeft h.store.head.2, hy]
    have hx2 : Half m2 c l t2 := by
      refine ⟨?_, h.positive, ?_, ?_, ?_⟩
      · rw [hm2, load_setRight (ptr_lt h.right.half.left.store),
          setLeft_only.load (by simpa using hxy.symm), h.node]
      · refine h.left.only ho2 fun p hp a ha => ?_
        rcases List.mem_pair.mp ha with rfl | rfl
        · exact (hlr p hp _ (by simp)).symm
        · exact hcl p hp
      · refine h.right.half.left.only ho2 fun p hp a ha => ?_
        rcases List.mem_pair.mp ha with rfl | rfl
        · exact hyt2 p hp
        · exact hcy p (by simp [hp])
      · refine h.store.sublist ?_
        simp
    obtain ⟨k, hk⟩ : ∃ k, k = 1 + if Avl.height l > Avl.height yr then Avl.height l
      else Avl.height t2 := ⟨_, rfl⟩
    have ht : Avl.rotateLeft (.node c l (.node y t2 yr)) = some
        (.node (Avl.updateHeight y (.node { c with height := k } l t2) yr)
          (.node { c with height := k } l t2) yr) := by
      rw [hk]
      rfl
    have hpos := (Avl.rotateLeft_same ht).2.2 ⟨h.positive, h.left.positive, h.right.positive⟩
    have hbound := Avl.rotateLeft_bounded h.left.bounded h.right.bounded ht
    have hlt : k < 2 ^ 31 := lt_of_le_of_lt hbound.2.1.height_le (by
      have := h.store.length_lt
      simp only [Avl.addrs_length_node] at this ⊢
      omega)
    obtain ⟨m3, hm3⟩ : ∃ m3, m3 = setHeight m2 c.addr k := ⟨_, rfl⟩
    have ho3 : Only [c.addr] m2 m3 := hm3 ▸ setHeight_only
    have hx3 : Stored m3 (.node { c with height := k } l t2) := by
      have hhalf : Half m3 { c with height := k } l t2 := by
        refine hx2.write ho3 rfl ?_ hpos.2.1.1
        rw [hm3, load_setHeight hpos.2.1.1.le hlt, hx2.node]
      exact hhalf.stored hbound.2.1
    have hy3 : Half m3 y (.node { c with height := k } l t2) yr := by
      refine ⟨?_, h.right.positive.1, hx3, ?_, ?_⟩
      · rw [ho3.load (by simpa using hxy), hy2]
        rfl
      · refine h.right.half.right.only (ho2.trans (ho3.mono (by simp))) fun p hp a ha => ?_
        rcases List.mem_pair.mp ha with rfl | rfl
        · exact hyr p hp
        · exact hcy p (by simp [hp])
      · simpa using h.store
    have hcode : KHeap.rotateLeft m c.addr = some (updateHeight m3 y.addr, y.addr) := by
      have hyr2 := h.right.half.right.only ho2 fun p hp a ha => by
        rcases List.mem_pair.mp ha with rfl | rfl
        · exact hyr p hp
        · exact hcy p (by simp [hp])
      rw [KHeap.rotateLeft, h.node, ptr_node]
      dsimp only
      rw [if_neg h.right.store.head.1, hy, ← hm2, hx2.node, hy2, height_ptr hx2.left.rep hx2.left.store,
        height_ptr hx2.right.rep hx2.right.store, height_ptr hyr2.rep hyr2.store, ← hk, ← hm3]
    rw [hcode, ht]
    refine .inr ⟨_, _, rfl, rfl, hy3.updated, ?_⟩
    exact ((ho2.mono (by simp)).trans (ho3.mono (by simp))).trans (updateHeight_only.mono (by simp))

end

end Shigure.Vm.KHeap
