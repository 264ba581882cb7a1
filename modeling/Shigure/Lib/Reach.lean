import Mathlib.Logic.Basic

/-!
# Runs of a partial step function

A component is a type of states, a type of calls and a partial function that
answers a call. `Reach` are the states a run leads to when every call is
allowed in the state it is made in; `exec` is the same run as a function, for
runs on fixed inputs.
-/

namespace Shigure

inductive Reach {σ ι : Type} (allowed : σ → ι → Prop) (step : σ → ι → Option σ) (s : σ) : σ → Prop
  | refl : Reach allowed step s s
  | tail {t u i} :
      Reach allowed step s t → allowed t i → step t i = some u → Reach allowed step s u

section
variable {σ ι : Type} {allowed allowed' : σ → ι → Prop} {step : σ → ι → Option σ} {s t u : σ} {i : ι}

/-- The invariant rule: what holds at the start and is kept by every allowed
step holds wherever a run leads. -/
theorem Reach.invariant (h : Reach allowed step s t) (inv : σ → Prop) (hinit : inv s)
    (hstep : ∀ t i u, inv t → allowed t i → step t i = some u → inv u) : inv t := by
  induction h with
  | refl => exact hinit
  | tail _ ha hs ih => exact hstep _ _ _ ih ha hs

theorem Reach.mono (hle : ∀ s i, allowed s i → allowed' s i) (h : Reach allowed step s t) :
    Reach allowed' step s t := by
  induction h with
  | refl => exact .refl
  | tail _ ha hs ih => exact .tail ih (hle _ _ ha) hs

theorem Reach.head (ha : allowed s i) (hs : step s i = some t) (h : Reach allowed step t u) :
    Reach allowed step s u := by
  induction h with
  | refl => exact .tail .refl ha hs
  | tail _ ha' hs' ih => exact .tail ih ha' hs'

/-- The calls of a run, the last one at the end. -/
inductive Calls (allowed : σ → ι → Prop) (step : σ → ι → Option σ) (s : σ) : List ι → σ → Prop
  | nil : Calls allowed step s [] s
  | snoc {is t u i} :
      Calls allowed step s is t → allowed t i → step t i = some u → Calls allowed step s (is ++ [i]) u

/-- The simulation rule: a state of a smaller machine that follows every allowed step
follows all the calls of a run. -/
theorem Calls.simulates {τ : Type} {next : τ → ι → τ} {is : List ι} {a : τ}
    (h : Calls allowed step s is t) (rel : σ → τ → Prop) (hinit : rel s a)
    (hstep : ∀ t i u a, rel t a → allowed t i → step t i = some u → rel u (next a i)) :
    rel t (is.foldl next a) := by
  induction h with
  | nil => exact hinit
  | snoc _ ha hs ih =>
    rw [List.foldl_append]
    exact hstep _ _ _ _ ih ha hs

theorem Calls.head {is : List ι} (ha : allowed s i) (hs : step s i = some t)
    (h : Calls allowed step t is u) : Calls allowed step s (i :: is) u := by
  induction h with
  | nil => exact .snoc .nil ha hs
  | snoc _ ha' hs' ih => exact .snoc ih ha' hs'

variable [∀ s i, Decidable (allowed s i)] {p : σ → Prop} [DecidablePred p]

def exec (allowed : σ → ι → Prop) [∀ s i, Decidable (allowed s i)] (step : σ → ι → Option σ) :
    σ → List ι → Option σ
  | s, [] => some s
  | s, i :: is => if allowed s i then (step s i).bind (exec allowed step · is) else none

theorem Reach.of_exec (is : List ι) (h : exec allowed step s is = some t) :
    Reach allowed step s t := by
  induction is generalizing s with
  | nil =>
    simp only [exec, Option.some.injEq] at h
    subst h
    exact .refl
  | cons i is ih =>
    simp only [exec] at h
    split at h
    · rename_i ha
      obtain ⟨u, hu, hr⟩ := Option.bind_eq_some_iff.mp h
      exact .head ha hu (ih hr)
    · cases h

theorem Calls.of_exec (is : List ι) (h : exec allowed step s is = some t) :
    Calls allowed step s is t := by
  induction is generalizing s with
  | nil =>
    obtain rfl := Option.some.inj h
    exact .nil
  | cons i is ih =>
    rw [exec] at h
    split at h
    · rename_i ha
      obtain ⟨u, hu, hr⟩ := Option.bind_eq_some_iff.mp h
      exact .head ha hu (ih hr)
    · cases h

theorem Reach.exists_of_exec (allowed : σ → ι → Prop) [∀ s i, Decidable (allowed s i)]
    (step : σ → ι → Option σ) (s : σ) (p : σ → Prop) [DecidablePred p] (is : List ι)
    (h : (exec allowed step s is).any (fun t => p t) = true) : ∃ t, Reach allowed step s t ∧ p t := by
  obtain ⟨t, ht, hp⟩ := (Option.any_eq_true _ _).mp h
  exact ⟨t, of_exec is ht, of_decide_eq_true hp⟩

theorem Calls.exists_of_exec (allowed : σ → ι → Prop) [∀ s i, Decidable (allowed s i)]
    (step : σ → ι → Option σ) (s : σ) (p : σ → Prop) [DecidablePred p] (is : List ι)
    (h : (exec allowed step s is).any (fun t => p t) = true) : ∃ t, Calls allowed step s is t ∧ p t := by
  obtain ⟨t, ht, hp⟩ := (Option.any_eq_true _ _).mp h
  exact ⟨t, of_exec is ht, of_decide_eq_true hp⟩

theorem Reach.refute (is : List ι) (h : (exec allowed step s is).any (fun t => ¬ p t) = true) :
    ¬ ∀ t, Reach allowed step s t → p t := by
  intro hall
  obtain ⟨t, ht, hp⟩ := (Option.any_eq_true _ _).mp h
  exact absurd (hall t (of_exec is ht)) (of_decide_eq_true hp)

end

end Shigure
