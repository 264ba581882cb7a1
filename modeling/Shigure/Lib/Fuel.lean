import Mathlib.Logic.Basic

/-!
# Recursions of bounded depth

A recursion that need not end is run with fuel. A run that is out of fuel has
said nothing yet; one that has ended may have done so without a result. A
recursion that has to come back to a state of the same kind before it can end
is out of fuel whatever it was given.
-/

namespace Shigure

inductive Run (α : Type)
  | outOfFuel
  | ended (result : Option α)

namespace Run

variable {α β σ : Type} {r : Run α} {f : α → Run β} {a : α}

/-- Sequencing: the first run that does not give a result is the last. -/
def bind : Run α → (α → Run β) → Run β
  | .outOfFuel, _ => .outOfFuel
  | .ended none, _ => .ended none
  | .ended (some a), f => f a

instance : Monad Run where
  pure a := .ended (some a)
  bind := Run.bind

def Ends (r : Run α) : Prop := r ≠ .outOfFuel

@[simp] theorem pure_eq (a : α) : (pure a : Run α) = .ended (some a) := rfl

@[simp] theorem outOfFuel_bind (f : α → Run β) : ((.outOfFuel : Run α) >>= f) = .outOfFuel := rfl

@[simp] theorem none_bind (f : α → Run β) : ((.ended none : Run α) >>= f) = .ended none := rfl

@[simp] theorem some_bind (a : α) (f : α → Run β) : (.ended (some a) >>= f) = f a := rfl

@[simp] theorem ends_ended (o : Option α) : (.ended o : Run α).Ends := nofun

theorem bind_assoc {γ : Type} (r : Run α) (f : α → Run β) (g : β → Run γ) :
    ((r >>= f) >>= g) = r >>= fun a => f a >>= g := by
  cases r with
  | outOfFuel => rfl
  | ended o => cases o <;> rfl

theorem Ends.bind (h : r.Ends) (hf : ∀ a, r = .ended (some a) → (f a).Ends) : (r >>= f).Ends := by
  cases r with
  | outOfFuel => exact absurd rfl h
  | ended o =>
    cases o with
    | none => exact ends_ended none
    | some a => exact hf a rfl

theorem bind_pure_ends (g : α → β) : (r >>= fun a => pure (g a)).Ends ↔ r.Ends := by
  constructor
  · rintro h rfl
    exact h rfl
  · exact fun h => h.bind fun a _ => ends_ended _

theorem bind_eq_some {b : β} (h : (r >>= f) = .ended (some b)) :
    ∃ a, r = .ended (some a) ∧ f a = .ended (some b) := by
  cases r with
  | outOfFuel => cases h
  | ended o =>
    cases o with
    | none => cases h
    | some a => exact ⟨a, rfl, h⟩

/-- Every run from the kind of states that `I` names first runs from another one. -/
theorem outOfFuel_of_progress (run : Nat → σ → Run α) (I : σ → Prop)
    (zero : ∀ s, run 0 s = .outOfFuel)
    (progress : ∀ s, I s → ∃ t, I t ∧
      ∀ fuel, run fuel t = .outOfFuel → run (fuel + 1) s = .outOfFuel)
    (fuel : Nat) {s : σ} (hs : I s) : run fuel s = .outOfFuel := by
  induction fuel generalizing s with
  | zero => exact zero s
  | succ fuel ih =>
    obtain ⟨t, ht, hrun⟩ := progress s hs
    exact hrun fuel (ih ht)

end Run

end Shigure
