import Shigure.Avl.Contents

/-!
# Search and assignment

What `find_best_fit` finds, and what happens to the blocks of a tree when the
fields of one node are assigned.
-/

namespace Shigure.Avl

section
variable {t t' l r : AvlNode} {c best : Cell} {size : Nat}

theorem findBestFit_mem (h : findBestFit size t = some best) :
    best ∈ inorder t ∧ size ≤ best.size := by
  induction t with
  | nil => cases h
  | node c l r ihl ihr =>
    simp only [findBestFit] at h
    split at h
    · rename_i hc
      split at h
      · rename_i b hb
        split at h <;> obtain rfl := Option.some.inj h
        · exact ⟨by simp [(ihl hb).1], (ihl hb).2⟩
        · exact ⟨by simp, hc⟩
      · obtain rfl := Option.some.inj h
        exact ⟨by simp, hc⟩
    · exact ⟨by simp [(ihr h).1], (ihr h).2⟩

def rightSpine : AvlNode → List Cell
  | .nil => []
  | .node c _ r => c :: rightSpine r

/-- The search only ever gives up at the end of the right spine. -/
theorem findBestFit_isSome : (findBestFit size t).isSome ↔ ∃ c ∈ rightSpine t, size ≤ c.size := by
  induction t with
  | nil => simp [findBestFit, rightSpine]
  | node c l r _ ihr =>
    simp only [findBestFit, rightSpine, List.exists_mem_cons_iff]
    split
    · rename_i hc
      refine iff_of_true ?_ (.inl hc)
      split
      · split <;> rfl
      · rfl
    · rename_i hc
      rw [ihr]
      exact ⟨.inr, fun h => h.resolve_left hc⟩

/-- The nodes that the search comes to: to the left below one that is large enough, to
the right below one that is not. -/
def searchPath (size : Nat) : AvlNode → List Cell
  | .nil => []
  | .node c l r => c :: if c.size ≥ size then searchPath size l else searchPath size r

def Smallest (size : Nat) (cs : List Cell) (c : Cell) : Prop :=
  c ∈ cs ∧ size ≤ c.size ∧ ∀ d ∈ cs, size ≤ d.size → c.size ≤ d.size

theorem findBestFit_none (h : findBestFit size t = none) (hc : c ∈ searchPath size t) :
    c.size < size := by
  induction t with
  | nil => cases hc
  | node d l r ihl ihr =>
    rw [findBestFit] at h
    split at h
    · split at h
      · split at h <;> cases h
      · cases h
    · rename_i hd
      rw [searchPath, if_neg hd] at hc
      rcases List.mem_cons.mp hc with rfl | hc
      · exact Nat.not_le.mp hd
      · exact ihr h hc

theorem findBestFit_path (h : findBestFit size t = some best) :
    Smallest size (searchPath size t) best := by
  induction t generalizing best with
  | nil => cases h
  | node c l r ihl ihr =>
    rw [findBestFit] at h
    rw [searchPath]
    split at h
    · rename_i hc
      rw [if_pos hc]
      cases hl : findBestFit size l with
      | none =>
        rw [hl] at h
        cases h
        refine ⟨List.mem_cons_self, hc, fun d hd hle => ?_⟩
        rcases List.mem_cons.mp hd with rfl | hd
        · exact Nat.le_refl _
        · exact absurd (findBestFit_none hl hd) (Nat.not_lt.mpr hle)
      | some b =>
        obtain ⟨hin, hle, hmin⟩ := ihl hl
        simp only [hl] at h
        split at h
        · rename_i hlt
          cases h
          refine ⟨List.mem_cons_of_mem c hin, hle, fun d hd hd' => ?_⟩
          rcases List.mem_cons.mp hd with rfl | hd
          · exact hlt.le
          · exact hmin d hd hd'
        · rename_i hge
          cases h
          refine ⟨List.mem_cons_self, hc, fun d hd hd' => ?_⟩
          rcases List.mem_cons.mp hd with rfl | hd
          · exact Nat.le_refl _
          · exact (Nat.not_lt.mp hge).trans (hmin d hd hd')
    · rename_i hc
      obtain ⟨hin, hle, hmin⟩ := ihr h
      rw [if_neg hc]
      refine ⟨List.mem_cons_of_mem c hin, hle, fun d hd hd' => ?_⟩
      rcases List.mem_cons.mp hd with rfl | hd
      · exact absurd hd' hc
      · exact hmin d hd hd'

def FindsBest (size : Nat) (t : AvlNode) : Prop :=
  (findBestFit size t = none ↔ ∀ c ∈ inorder t, c.size < size) ∧
    ∀ best, findBestFit size t = some best → Smallest size (inorder t) best

/-- The search finds a best block exactly if it comes to a smallest one, should there be one. -/
theorem finds_best_iff (size : Nat) (t : AvlNode) : FindsBest size t ↔
    ((∃ c ∈ inorder t, size ≤ c.size) → ∃ c ∈ searchPath size t, Smallest size (inorder t) c) := by
  constructor
  · rintro ⟨hnone, hsome⟩ ⟨c, hc, hle⟩
    cases h : findBestFit size t with
    | none => exact absurd (hnone.mp h c hc) (Nat.not_lt.mpr hle)
    | some best => exact ⟨best, (findBestFit_path h).1, hsome best h⟩
  · intro hpath
    refine ⟨⟨fun h c hc => ?_, fun hsmall => ?_⟩, fun best h => ?_⟩
    · by_contra hle
      obtain ⟨d, hd, -, hfits, -⟩ := hpath ⟨c, hc, Nat.not_lt.mp hle⟩
      exact absurd (findBestFit_none h hd) (Nat.not_lt.mpr hfits)
    · cases h : findBestFit size t with
      | none => rfl
      | some best =>
        obtain ⟨hin, hle⟩ := findBestFit_mem h
        exact absurd (hsmall best hin) (Nat.not_lt.mpr hle)
    · obtain ⟨hin, hle⟩ := findBestFit_mem h
      obtain ⟨d, hd, -, hfits, hmin⟩ := hpath ⟨best, hin, hle⟩
      refine ⟨hin, hle, fun e he hle' => ?_⟩
      exact ((findBestFit_path h).2.2 d hd hfits).trans (hmin e he hle')

/-- A block of 256 bytes below the root, which is too small. -/
theorem fit_missed : ¬ ∀ (size : Nat) (t : AvlNode), Ordered t → FindsBest size t := by
  intro hall
  have ho : Ordered (.node ⟨8, 0x2000, 16, 2⟩ (.node ⟨4, 0x1000, 256, 1⟩ .nil .nil) .nil) := by
    simp [Ordered, Sorted, spans, Cell.span]
  have h := hall 100 _ ho
  exact absurd (h.1.mp rfl ⟨4, 0x1000, 256, 1⟩ (by decide)) (by decide)

-- ---------------------------------------------------------------------------
-- Blocks with their nodes
-- ---------------------------------------------------------------------------

theorem mem_spans_of_mem (h : c ∈ inorder t) : c.span ∈ spans t := List.mem_map_of_mem h

theorem inorder_map (f : Cell → Cell) (t : AvlNode) : inorder (t.map f) = (inorder t).map f := by
  induction t with
  | nil => rfl
  | node c l r ihl ihr => simp [BinaryTree.map, ihl, ihr]

theorem exists_same_cell (hs : spans t' = spans t) (ha : addrs t' = addrs t) (hc : c ∈ inorder t) :
    ∃ c' ∈ inorder t', c'.addr = c.addr ∧ c'.span = c.span := by
  simp only [spans, addrs] at hs ha
  generalize inorder t = xs at *
  generalize inorder t' = ys at *
  induction xs generalizing ys with
  | nil => cases hc
  | cons x xs ih =>
    cases ys with
    | nil => cases hs
    | cons y ys =>
      simp only [List.map_cons, List.cons.injEq] at hs ha
      rcases List.mem_cons.mp hc with rfl | hc
      · exact ⟨y, by simp, ha.1, hs.1⟩
      · obtain ⟨c', hc', h⟩ := ih hc ys hs.2 ha.2
        exact ⟨c', List.mem_cons_of_mem y hc', h⟩

/-- An insertion of a base that is there changes no block. -/
theorem insert_go_present (ho : Ordered t) (hb : ∃ s ∈ spans t, s.base = base)
    (h : avlInsert.go addr base size t = some t') : spans t' = spans t ∧ addrs t' = addrs t := by
  have hs : spans t' = spans t := by
    rw [insert_go_spans ho h]
    exact insertKey_present ho hb
  refine ⟨hs, (insert_go_addrs h).resolve_right fun hp => ?_⟩
  have hlen := hp.length_eq
  have := congrArg List.length hs
  simp only [spans, addrs, List.length_map, List.length_cons] at *
  omega

end

end Shigure.Avl
