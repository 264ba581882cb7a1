import Shigure.Lib.Word

/-!
# Loops that step through memory

`while (x < limit) { body(x); x += stride; }`, where the limit may move while the
loop runs. A loop whose number of rounds is known runs to its end. `countDown` is a
loop that steps down instead, `forIndex` one that counts its rounds.
-/

namespace Shigure

section
variable {σ : Type} (stride : Nat) (limit : σ → Nat) (body : Nat → σ → Option σ)

/-- The end of the loop variable, and the state. -/
def whileBelow : Nat → Nat → σ → Option (Nat × σ)
  | 0, _, _ => none
  | fuel + 1, x, s =>
    if x < limit s then (body x s).bind (whileBelow fuel (add32 x stride)) else some (x, s)

/-- What holds at the start of round `k`, of `n` rounds. -/
structure Rounds (inv : Nat → σ → Prop) (start n : Nat) : Prop where
  step : ∀ k s, k < n → inv k s → start + k * stride < limit s ∧
    ∃ s', body (start + k * stride) s = some s' ∧ inv (k + 1) s'
  stop : ∀ s, inv n s → limit s ≤ start + n * stride
  word : start + n * stride < wordSize

variable {stride limit body} {inv : Nat → σ → Prop} {start n k fuel : Nat} {s : σ}

theorem Rounds.run_from (h : Rounds stride limit body inv start n) (hs : inv k s) (hk : k ≤ n)
    (hfuel : n - k < fuel) :
    ∃ s', whileBelow stride limit body fuel (start + k * stride) s = some (start + n * stride, s') ∧
      inv n s' := by
  induction fuel generalizing k s with
  | zero => omega
  | succ fuel ih =>
    rw [whileBelow]
    rcases Nat.lt_or_ge k n with hlt | hge
    · obtain ⟨hbelow, s₁, hbody, h1⟩ := h.step k s hlt hs
      rw [if_pos hbelow, hbody, Option.bind_some]
      have hnext : start + k * stride + stride = start + (k + 1) * stride := by
        rw [Nat.add_mul, Nat.one_mul, Nat.add_assoc]
      have hle : (k + 1) * stride ≤ n * stride := Nat.mul_le_mul_right stride hlt
      have hword := h.word
      rw [add32_eq (by omega), hnext]
      exact ih h1 hlt (by omega)
    · obtain rfl : k = n := by omega
      rw [if_neg (Nat.not_lt.mpr (h.stop s hs))]
      exact ⟨s, rfl, hs⟩

theorem Rounds.run (h : Rounds stride limit body inv start n) (hs : inv 0 s) (hfuel : n < fuel) :
    ∃ s', whileBelow stride limit body fuel start s = some (start + n * stride, s') ∧ inv n s' := by
  simpa using h.run_from hs (Nat.zero_le n) hfuel

/-- What every round keeps, the loop keeps. -/
theorem whileBelow_keeps (keep : σ → Prop) {x y : Nat} {s' : σ}
    (hbody : ∀ x s s', keep s → body x s = some s' → keep s') (hs : keep s)
    (h : whileBelow stride limit body fuel x s = some (y, s')) : keep s' := by
  induction fuel generalizing x s with
  | zero => cases h
  | succ fuel ih =>
    rw [whileBelow] at h
    split at h
    · obtain ⟨s₁, h1, h⟩ := Option.bind_eq_some_iff.mp h
      exact ih (hbody x s s₁ hs h1) h
    · cases h
      exact hs

/-- `for (x = ...; go(x); x -= stride) body(x)`. -/
def countDown (stride : Nat) (go : Nat → Bool) (body : Nat → σ → Option σ) : Nat → Nat → σ → Option σ
  | 0, _, _ => none
  | fuel + 1, x, s =>
    if go x then (body x s).bind (countDown stride go body fuel (sub32 x stride)) else some s

theorem countDown_round {go : Nat → Bool} {x y : Nat} (hgo : go x = true) (hy : sub32 x stride = y) :
    countDown stride go body (fuel + 1) x =
      fun s => (body x s).bind (countDown stride go body fuel y) := by
  funext s
  rw [countDown, if_pos hgo, hy]

theorem countDown_stop {go : Nat → Bool} {x : Nat} (hgo : go x = false) :
    countDown stride go body (fuel + 1) x = some := by
  funext s
  rw [countDown, hgo]
  rfl

theorem countDown_keeps {go : Nat → Bool} (keep : σ → Prop) {x : Nat} {s' : σ}
    (hbody : ∀ x s s', keep s → body x s = some s' → keep s') (hs : keep s)
    (h : countDown stride go body fuel x s = some s') : keep s' := by
  induction fuel generalizing x s with
  | zero => cases h
  | succ fuel ih =>
    rw [countDown] at h
    split at h
    · obtain ⟨s₁, h1, h⟩ := Option.bind_eq_some_iff.mp h
      exact ih (hbody x s s₁ hs h1) h
    · cases h
      exact hs

/-- `n` rounds of `for (i = start; ...; i++) body(i)`. -/
def forIndex (body : Nat → σ → σ) : Nat → Nat → σ → σ
  | 0, _, s => s
  | n + 1, i, s => forIndex body n (i + 1) (body i s)

theorem forIndex_rounds {body : Nat → σ → σ} (inv : Nat → σ → Prop)
    (hstep : ∀ i s, start ≤ i → i < start + n → inv i s → inv (i + 1) (body i s)) (hs : inv start s) :
    inv (start + n) (forIndex body n start s) := by
  induction n generalizing start s with
  | zero => exact hs
  | succ n ih =>
    rw [← Nat.succ_add_eq_add_succ]
    exact ih (fun i s h1 h2 => hstep i s (by omega) (by omega))
      (hstep start s (Nat.le_refl _) (by omega) hs)

end

end Shigure
