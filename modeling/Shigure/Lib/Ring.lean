import Mathlib.Data.List.Basic
import Mathlib.Data.Nat.ModEq

/-!
# Ring buffers

A queue in `size` slots is the window of its length from a first slot on, with
indices modulo `size`. One slot stays free, so that equal ends mean an empty
queue.
-/

namespace Shigure

def window {α : Type} (slots : Nat → α) (size start n : Nat) : List α :=
  (List.range n).map fun i => slots ((start + i) % size)

section
variable {α : Type} {slots : Nat → α} {size start n i j : Nat} {a : α}

@[simp] theorem window_length : (window slots size start n).length = n := by simp [window]

theorem window_zero : window slots size start 0 = [] := rfl

theorem slot_inj (hi : i < size) (hj : j < size) (h : (start + i) % size = (start + j) % size) :
    i = j := by
  have := Nat.ModEq.add_left_cancel' start h
  rwa [Nat.ModEq, Nat.mod_eq_of_lt hi, Nat.mod_eq_of_lt hj] at this

theorem window_push (h : n < size) :
    window (fun k => if k = (start + n) % size then a else slots k) size start (n + 1) =
      window slots size start n ++ [a] := by
  rw [window, List.range_succ, List.map_append, List.map_singleton, if_pos rfl]
  refine congrArg (· ++ [a]) (List.map_congr_left fun i hi => if_neg fun he => ?_)
  have hlt := List.mem_range.mp hi
  exact absurd (slot_inj (hlt.trans h) h he) hlt.ne

theorem window_pop (hs : start < size) :
    window slots size start (n + 1) = slots start :: window slots size ((start + 1) % size) n := by
  rw [window, List.range_succ_eq_map, List.map_cons, List.map_map, Nat.add_zero,
    Nat.mod_eq_of_lt hs]
  refine congrArg _ (List.map_congr_left fun i _ => ?_)
  rw [Function.comp, Nat.mod_add_mod]
  congr 2
  omega

/-- The ends meet when the queue is empty. -/
theorem ends_meet (hs : start < size) (hn : n < size) : start = (start + n) % size ↔ n = 0 := by
  constructor
  · intro h
    have h0 : (start + 0) % size = (start + n) % size := by rwa [Nat.add_zero, Nat.mod_eq_of_lt hs]
    exact (slot_inj (by omega) hn h0).symm
  · rintro rfl
    rw [Nat.add_zero, Nat.mod_eq_of_lt hs]

/-- One more value would make the ends meet when all slots but one are taken. -/
theorem ends_touch (hs : start < size) (hn : n < size) :
    ((start + n) % size + 1) % size = start ↔ n + 1 = size := by
  rw [Nat.mod_add_mod, Nat.add_assoc]
  constructor
  · intro h
    by_contra hne
    have := (ends_meet hs (show n + 1 < size by omega)).mp h.symm
    omega
  · rintro rfl
    rw [Nat.add_mod_right, Nat.mod_eq_of_lt hs]

end

end Shigure
