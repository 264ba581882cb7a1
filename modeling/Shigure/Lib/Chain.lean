import Mathlib.Data.List.Cycle

/-!
# Linked lists that end in a null pointer

The nodes of a list by their addresses, with `next` for the link in a node. The
list is what a walk from its first node visits, so no node comes twice, and a
node's link is the next element or null.
-/

namespace Shigure

section
variable {α : Type} (null : α)

/-- The list that starts at `p`. -/
def Chain (next : α → α) : α → List α → Prop
  | p, [] => p = null
  | p, a :: l => p = a ∧ a ≠ null ∧ Chain next (next a) l

variable {null} {next next' : α → α} {p a b : α} {l l' l₁ l₂ : List α}

theorem Chain.ne_null (h : Chain null next p l) (ha : a ∈ l) : a ≠ null := by
  induction l generalizing p with
  | nil => cases ha
  | cons b l ih =>
    obtain ⟨-, hb, h⟩ := h
    rcases List.mem_cons.mp ha with rfl | ha
    · exact hb
    · exact ih h ha

theorem Chain.unique (h : Chain null next p l) (h' : Chain null next p l') : l = l' := by
  induction l generalizing p l' with
  | nil =>
    cases l' with
    | nil => rfl
    | cons b l' => exact absurd (h'.1.symm.trans h) h'.2.1
  | cons a l ih =>
    cases l' with
    | nil => exact absurd (h.1.symm.trans h') h.2.1
    | cons b l' =>
      obtain rfl : a = b := h.1.symm.trans h'.1
      rw [ih h.2.2 h'.2.2]

theorem Chain.behind (h : Chain null next p (l₁ ++ a :: l₂)) : Chain null next (next a) l₂ := by
  induction l₁ generalizing p with
  | nil => exact h.2.2
  | cons b l₁ ih => exact ih h.2.2

theorem Chain.from (h : Chain null next p (l₁ ++ a :: l₂)) : Chain null next a (a :: l₂) :=
  ⟨rfl, h.ne_null (List.mem_append_right _ List.mem_cons_self), h.behind⟩

theorem Chain.nodup (h : Chain null next p l) : l.Nodup := by
  induction l generalizing p with
  | nil => exact List.nodup_nil
  | cons a l ih =>
    refine List.nodup_cons.mpr ⟨fun hin => ?_, ih h.2.2⟩
    -- the list from `a` would be longer than itself
    obtain ⟨l₁, l₂, rfl⟩ := List.append_of_mem hin
    have he := congrArg List.length (h.2.2.from.unique (h.1 ▸ h))
    simp only [List.length_cons, List.length_append] at he
    omega

theorem Chain.next_ne_first (h : Chain null next p l) (ha : a ∈ l) : next a ≠ p := by
  intro he
  obtain ⟨l₁, l₂, rfl⟩ := List.append_of_mem ha
  -- the list from `a` on would be as long as the whole
  have hsame := congrArg List.length ((he ▸ h.behind).unique h)
  simp only [List.length_cons, List.length_append] at hsame
  omega

theorem Chain.next_eq [DecidableEq α] (h : Chain null next p l) (ha : a ∈ l) :
    next a = l.nextOr a null := by
  induction l generalizing p with
  | nil => cases ha
  | cons b l ih =>
    cases l with
    | nil =>
      obtain rfl := List.mem_singleton.mp ha
      exact h.2.2
    | cons c l =>
      rw [List.nextOr]
      split
      · rename_i he
        rw [he]
        exact h.2.2.1
      · rename_i hne
        exact ih h.2.2 ((List.mem_cons.mp ha).resolve_left hne)

theorem Chain.next_null_iff (h : Chain null next p (l ++ [b])) (ha : a ∈ l ++ [b]) :
    next a = null ↔ a = b := by
  constructor
  · intro h0
    rcases List.mem_append.mp ha with hin | hin
    · obtain ⟨l₁, l₂, rfl⟩ := List.append_of_mem hin
      rw [List.append_assoc, List.cons_append] at h
      have hnil := Chain.unique (l := []) h0 h.behind
      exact absurd hnil (by simp)
    · exact List.mem_singleton.mp hin
  · rintro rfl
    exact h.behind

/-- The cyclic successor of a node that is not the last. -/
theorem Chain.next_cyclic [DecidableEq α] (h : Chain null next p l) (ha : a ∈ l)
    (hne : next a ≠ null) : next a = l.next a ha := by
  have hlast : a ∈ l.dropLast := by
    obtain ⟨l₁, b, rfl⟩ := List.eq_nil_or_concat' l |>.resolve_left (List.ne_nil_of_mem ha)
    rw [List.dropLast_concat]
    rcases List.mem_append.mp ha with hin | hin
    · exact hin
    · exact absurd ((h.next_null_iff ha).mpr (List.mem_singleton.mp hin)) hne
  rw [h.next_eq ha, List.next]
  exact List.nextOr_eq_nextOr_of_mem_dropLast l a _ _ hlast

theorem Chain.next_last [DecidableEq α] (h : Chain null next p l) (ha : a ∈ l)
    (h0 : next a = null) : l.next a ha = p := by
  obtain ⟨l₁, l₂, rfl⟩ := List.append_of_mem ha
  obtain rfl : l₂ = [] := h.behind.unique (show Chain null next (next a) [] from h0)
  have hnew : a ∉ l₁ := fun hin =>
    List.disjoint_of_nodup_append h.nodup hin List.mem_cons_self
  rw [List.next, List.nextOr_concat _ hnew]
  cases l₁ with
  | nil => exact h.1.symm
  | cons b l₁ => exact h.1.symm

theorem Chain.congr (h : Chain null next p l) (hn : ∀ a ∈ l, next' a = next a) :
    Chain null next' p l := by
  induction l generalizing p with
  | nil => exact h
  | cons a l ih =>
    refine ⟨h.1, h.2.1, ih ?_ fun b hb => hn b (List.mem_cons_of_mem a hb)⟩
    rw [hn a List.mem_cons_self]
    exact h.2.2

theorem Chain.concat (h : Chain null next p (l ++ [b])) (hb : next' b = a) (ha : a ≠ null)
    (hend : next' a = null) (hn : ∀ x ∈ l, next' x = next x) : Chain null next' p (l ++ [b, a]) := by
  induction l generalizing p with
  | nil => exact ⟨h.1, h.2.1, hb, ha, hend⟩
  | cons x l ih =>
    refine ⟨h.1, h.2.1, ih ?_ fun y hy => hn y (List.mem_cons_of_mem x hy)⟩
    rw [hn x List.mem_cons_self]
    exact h.2.2

/-- `while (p->next) p = p->next;`. -/
def lastNode [DecidableEq α] (null : α) (next : α → α) : Nat → α → Option α
  | 0, _ => none
  | fuel + 1, p => if next p = null then some p else lastNode null next fuel (next p)

theorem Chain.lastNode [DecidableEq α] {fuel : Nat} (h : Chain null next p (l ++ [b]))
    (hf : l.length < fuel) : lastNode null next fuel p = some b := by
  induction l generalizing p fuel with
  | nil =>
    cases fuel with
    | zero => cases hf
    | succ fuel =>
      obtain ⟨rfl, -, h0⟩ := h
      rw [Shigure.lastNode, if_pos (show next p = null from h0)]
  | cons x l ih =>
    cases fuel with
    | zero => cases hf
    | succ fuel =>
      obtain ⟨rfl, -, h'⟩ := h
      have hne : next p ≠ null := by
        cases l with
        | nil => exact h'.1 ▸ h'.2.1
        | cons y l => exact h'.1 ▸ h'.2.1
      rw [Shigure.lastNode, if_neg hne]
      exact ih h' (by simpa using hf)

end

end Shigure
