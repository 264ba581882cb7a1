import Mathlib.Logic.Function.Basic

/-!
# A roll of paper

Cells without end in rows of `width`, and a pen that goes forward as it writes and back
as it erases. As long as the paper is clean behind the pen, erasing undoes writing.
-/

namespace Shigure

structure Roll (α : Type) where
  ink : Nat → Option α
  pen : Nat

namespace Roll

section
variable {α : Type}

def blank : Roll α := ⟨fun _ => none, 0⟩

def put (a : α) (r : Roll α) : Roll α := ⟨Function.update r.ink r.pen (some a), r.pen + 1⟩

def feed (width : Nat) (r : Roll α) : Roll α := ⟨r.ink, (r.pen / width + 1) * width⟩

def erase (r : Roll α) : Roll α := ⟨Function.update r.ink (r.pen - 1) none, r.pen - 1⟩

def Clean (r : Roll α) : Prop := ∀ i, r.pen ≤ i → r.ink i = none

variable {r : Roll α} {a : α} {width i : Nat}

theorem clean_blank : (blank : Roll α).Clean := fun _ _ => rfl

theorem ink_put : (r.put a).ink i = if i = r.pen then some a else r.ink i := by
  simp only [put, Function.update_apply]

theorem ink_erase : r.erase.ink i = if i = r.pen - 1 then none else r.ink i := by
  simp only [erase, Function.update_apply]

theorem Clean.put (h : r.Clean) (a : α) : (r.put a).Clean := by
  intro i hi
  have hi : r.pen + 1 ≤ i := hi
  rw [ink_put, if_neg (by omega)]
  exact h i (by omega)

theorem pen_le_feed (hw : 0 < width) : r.pen ≤ (r.feed width).pen := by
  rw [feed, Nat.mul_comm]
  exact Nat.le_of_lt (Nat.lt_mul_div_succ r.pen hw)

theorem Clean.feed (h : r.Clean) (hw : 0 < width) : (r.feed width).Clean :=
  fun i hi => h i (Nat.le_trans (pen_le_feed hw) hi)

theorem erase_put (h : r.Clean) (a : α) : (r.put a).erase = r := by
  obtain ⟨ink, pen⟩ := r
  have hnone : ink pen = none := h pen (Nat.le_refl _)
  simp only [Roll.put, erase, Nat.add_sub_cancel, Function.update_idem, mk.injEq, and_true]
  rw [← hnone, Function.update_eq_self]

end

end Roll

end Shigure
