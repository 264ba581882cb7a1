import Mathlib.Data.BitVec

/-!
# A stack of words

Memory as words by address, and the words that stand from an address upwards,
one every four bytes. A stack grows towards lower addresses: the word pushed last
stands first.
-/

namespace Shigure

abbrev Words := BitVec 32 → BitVec 32

namespace Words

def store (m : Words) (a v : BitVec 32) : Words := fun x => if x = a then v else m x

@[simp] theorem store_same (m : Words) (a v : BitVec 32) : m.store a v a = v := by
  simp [store]

theorem store_other (m : Words) {a b : BitVec 32} (v : BitVec 32) (h : b ≠ a) :
    m.store a v b = m b := by
  simp [store, h]

/-- The words `ws` stand from address `a` upwards. -/
def Holds (m : Words) : BitVec 32 → List (BitVec 32) → Prop
  | _, [] => True
  | a, w :: ws => m a = w ∧ m.Holds (a + 4#32) ws

theorem Holds.store {m : Words} (h : m.Holds a ws)
    (hb : ∀ i, i < ws.length → b ≠ a + BitVec.ofNat 32 (4 * i)) : (m.store b v).Holds a ws := by
  induction ws generalizing a with
  | nil => exact trivial
  | cons w ws ih =>
    obtain ⟨hw, hrest⟩ := h
    constructor
    · rw [store_other m v (by simpa using (hb 0 (by simp)).symm), hw]
    · apply ih hrest
      intro i hi
      have hne := hb (i + 1) (by simpa using hi)
      intro heq
      apply hne
      rw [heq, BitVec.add_assoc]
      congr 1
      apply BitVec.eq_of_toNat_eq
      simp
      omega

/-- A push below a stack of less than `2 ^ 29` words writes over none of them. -/
theorem Holds.push {m : Words} (h : m.Holds a ws) (hlen : ws.length < 2 ^ 29) :
    (m.store (a - 4#32) v).Holds (a - 4#32) (v :: ws) := by
  constructor
  · exact store_same m _ v
  · rw [BitVec.sub_add_cancel]
    apply h.store
    intro i hi
    bv_omega

theorem Holds.append {m : Words} (h : m.Holds a (ws ++ us)) : m.Holds a ws := by
  induction ws generalizing a with
  | nil => exact trivial
  | cons w ws ih => exact ⟨h.1, ih h.2⟩

end Words

end Shigure
