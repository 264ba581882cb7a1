import Mathlib.Data.List.Basic
import Mathlib.Order.Lattice

/-!
# Lists ordered by a key

A finite map kept as a list in strictly increasing order of a key: insertion
that leaves the list alone when the key is there, and removal by key. Both are
stated along `l ++ c :: r`, the form in which a search tree presents its
in-order sequence.
-/

namespace Shigure

section
variable {α κ : Type} [LinearOrder κ] {key : α → κ}

def Sorted (key : α → κ) (l : List α) : Prop := l.Pairwise fun a b => key a < key b

def insertKey (key : α → κ) (x : α) : List α → List α
  | [] => [x]
  | y :: ys =>
    if key x < key y then x :: y :: ys
    else if key y < key x then y :: insertKey key x ys
    else y :: ys

def eraseKey (key : α → κ) (k : κ) (l : List α) : List α := l.filter fun x => key x ≠ k

theorem sorted_middle {l r : List α} :
    Sorted key (l ++ c :: r) ↔
      Sorted key l ∧ Sorted key r ∧ (∀ x ∈ l, key x < key c) ∧ ∀ x ∈ r, key c < key x := by
  constructor
  · intro h
    obtain ⟨hl, hcr, hlr⟩ := List.pairwise_append.mp h
    obtain ⟨hc, hr⟩ := List.pairwise_cons.mp hcr
    exact ⟨hl, hr, fun x hx => hlr x hx c (by simp), hc⟩
  · rintro ⟨hl, hr, hlc, hcr⟩
    refine List.pairwise_append.mpr ⟨hl, List.pairwise_cons.mpr ⟨hcr, hr⟩, ?_⟩
    intro x hx y hy
    rcases List.mem_cons.mp hy with rfl | hy
    · exact hlc x hx
    · exact (hlc x hx).trans (hcr y hy)

-- ---------------------------------------------------------------------------
-- Insertion
-- ---------------------------------------------------------------------------

theorem Sorted.eq_of_key {l : List α} (hs : Sorted key l) (ha : a ∈ l) (hb : b ∈ l)
    (h : key a = key b) : a = b := by
  induction l with
  | nil => cases ha
  | cons y ys ih =>
    obtain ⟨hy, hys⟩ := List.pairwise_cons.mp hs
    rcases List.mem_cons.mp ha with rfl | ha' <;> rcases List.mem_cons.mp hb with rfl | hb'
    · rfl
    · exact absurd h (hy b hb').ne
    · exact absurd h (hy a ha').ne'
    · exact ih hys ha' hb'

theorem insertKey_left {l r : List α} (h : key x < key c) :
    insertKey key x (l ++ c :: r) = insertKey key x l ++ c :: r := by
  induction l with
  | nil => simp [insertKey, h]
  | cons y ys ih =>
    simp only [List.cons_append, insertKey]
    split
    · rfl
    · split
      · rw [ih, List.cons_append]
      · rfl

theorem insertKey_right {l r : List α} (hl : ∀ y ∈ l, key y < key c) (h : key c < key x) :
    insertKey key x (l ++ c :: r) = l ++ c :: insertKey key x r := by
  induction l with
  | nil => simp [insertKey, h, h.not_gt]
  | cons y ys ih =>
    have hy : key y < key x := (hl y (by simp)).trans h
    simp [insertKey, hy, hy.not_gt, ih fun z hz => hl z (List.mem_cons_of_mem _ hz)]

theorem insertKey_present {l : List α} (hs : Sorted key l) (hk : ∃ y ∈ l, key y = key x) :
    insertKey key x l = l := by
  induction l with
  | nil => simp at hk
  | cons z zs ih =>
    obtain ⟨hz, hzs⟩ := List.pairwise_cons.mp hs
    obtain ⟨y, hy, he⟩ := hk
    rcases List.mem_cons.mp hy with rfl | hy
    · simp [insertKey, he]
    · have hlt : key z < key x := he ▸ hz y hy
      simp [insertKey, hlt, hlt.not_gt, ih hzs ⟨y, hy, he⟩]

theorem mem_insertKey {l : List α} :
    y ∈ insertKey key x l → y = x ∨ y ∈ l := by
  induction l with
  | nil => simp [insertKey]
  | cons z zs ih =>
    simp only [insertKey]
    split
    · simp
    · split
      · intro h
        rcases List.mem_cons.mp h with rfl | h
        · simp
        · exact (ih h).imp_right (List.mem_cons_of_mem _)
      · exact Or.inr

theorem mem_insertKey_absent {l : List α} (hk : ∀ y ∈ l, key y ≠ key x) :
    y ∈ insertKey key x l ↔ y = x ∨ y ∈ l := by
  refine ⟨mem_insertKey, ?_⟩
  induction l with
  | nil => simp [insertKey]
  | cons z zs ih =>
    have ih := ih fun w hw => hk w (List.mem_cons_of_mem _ hw)
    simp only [insertKey]
    split
    · simp
    · split
      · rintro (h | h)
        · exact List.mem_cons_of_mem _ (ih (.inl h))
        · rcases List.mem_cons.mp h with rfl | h
          · simp
          · exact List.mem_cons_of_mem _ (ih (.inr h))
      · rename_i h1 h2
        exact absurd (le_antisymm (not_lt.mp h1) (not_lt.mp h2)) (hk z (by simp))

theorem Sorted.insertKey {l : List α} (hs : Sorted key l) : Sorted key (insertKey key x l) := by
  induction l with
  | nil => simp [Shigure.insertKey, Sorted]
  | cons z zs ih =>
    obtain ⟨hz, hzs⟩ := List.pairwise_cons.mp hs
    simp only [Shigure.insertKey]
    split
    · rename_i hxz
      refine List.pairwise_cons.mpr ⟨?_, hs⟩
      intro y hy
      rcases List.mem_cons.mp hy with rfl | hy
      · exact hxz
      · exact hxz.trans (hz y hy)
    · split
      · rename_i hzx
        refine List.pairwise_cons.mpr ⟨?_, ih hzs⟩
        intro y hy
        rcases mem_insertKey hy with rfl | hy
        · exact hzx
        · exact hz y hy
      · exact hs

-- ---------------------------------------------------------------------------
-- Removal
-- ---------------------------------------------------------------------------

theorem mem_eraseKey {l : List α} : x ∈ eraseKey key k l ↔ x ∈ l ∧ key x ≠ k := by
  simp [eraseKey]

theorem Sorted.eraseKey {l : List α} (hs : Sorted key l) : Sorted key (eraseKey key k l) :=
  List.Pairwise.filter _ hs

theorem eraseKey_absent {l : List α} (h : ∀ x ∈ l, key x ≠ k) : eraseKey key k l = l :=
  List.filter_eq_self.mpr fun x hx => by simpa using h x hx

theorem eraseKey_left {l r : List α} (hr : ∀ x ∈ r, key c < key x) (h : k < key c) :
    eraseKey key k (l ++ c :: r) = eraseKey key k l ++ c :: r := by
  have hcr : eraseKey key k (c :: r) = c :: r := by
    refine eraseKey_absent ?_
    intro x hx
    rcases List.mem_cons.mp hx with rfl | hx
    · exact h.ne'
    · exact (h.trans (hr x hx)).ne'
  unfold eraseKey at hcr ⊢
  rw [List.filter_append, hcr]

theorem eraseKey_right {l r : List α} (hl : ∀ x ∈ l, key x < key c) (h : key c < k) :
    eraseKey key k (l ++ c :: r) = l ++ c :: eraseKey key k r := by
  have hll : eraseKey key k l = l := eraseKey_absent fun x hx => ((hl x hx).trans h).ne
  unfold eraseKey at hll ⊢
  rw [List.filter_append, hll, List.filter_cons_of_pos (by simpa using h.ne)]

theorem eraseKey_middle {l r : List α} (hl : ∀ x ∈ l, key x < key c)
    (hr : ∀ x ∈ r, key c < key x) : eraseKey key (key c) (l ++ c :: r) = l ++ r := by
  have hll : eraseKey key (key c) l = l := eraseKey_absent fun x hx => (hl x hx).ne
  have hrr : eraseKey key (key c) r = r := eraseKey_absent fun x hx => (hr x hx).ne'
  unfold eraseKey at hll hrr ⊢
  rw [List.filter_append, hll, List.filter_cons_of_neg (by simp), hrr]

end

end Shigure
