import Shigure.Lib.Bytes

/-!
# Memory through a map of its addresses

A program reads and writes memory at addresses that the machine translates: its byte
at `a` is the byte at `φ a`. Here a run of bytes is copied, and a run of words is
updated, through such a map; both say what became of everything as long as the
addresses in use are not translated to one another's.
-/

namespace Shigure.Mem

def copyVia (φ : Nat → Nat) : Nat → Nat → Nat → Mem → Mem
  | _, _, 0, m => m
  | dst, src, n + 1, m => copyVia φ (dst + 1) (src + 1) n (m.set (φ dst) (m (φ src)))

/-- A word is replaced if `f` gives another one for it. -/
def updateWord (f : Nat → Option Nat) (a : Nat) (m : Mem) : Mem :=
  match f (m.read32 a) with
  | some w => m.write32 a w
  | none => m

def updateDown (φ : Nat → Nat) (f : Nat → Option Nat) (a : Nat) : Nat → Mem → Mem
  | 0, m => m
  | n + 1, m => updateDown φ f a n (updateWord f (φ (a + 4 * (n + 1))) m)

def WordsApart (φ : Nat → Nat) (used : Nat → Prop) : Prop :=
  ∀ a b, used a → used b → a ≠ b → φ a + 4 ≤ φ b ∨ φ b + 4 ≤ φ a

section
variable {φ : Nat → Nat} {f : Nat → Option Nat} {used : Nat → Prop} {dst src n a b : Nat} {m : Mem}

-- ---------------------------------------------------------------------------
-- Copying
-- ---------------------------------------------------------------------------

theorem copyVia_outside {x : Nat} (h : ∀ i < n, x ≠ φ (dst + i)) : copyVia φ dst src n m x = m x := by
  induction n generalizing dst src m with
  | zero => rfl
  | succ n ih =>
    rw [copyVia, ih fun i hi => by
      have := h (i + 1) (Nat.succ_lt_succ hi)
      rwa [Nat.add_comm i, ← Nat.add_assoc] at this]
    exact if_neg (h 0 n.succ_pos)

/-- The bytes arrive if no two of them go to one place, and none goes where one is still
to be read. -/
theorem copyVia_copied (hinj : ∀ i < n, ∀ j < n, φ (dst + i) = φ (dst + j) → i = j)
    (hapart : ∀ i < n, ∀ j < n, φ (dst + i) ≠ φ (src + j)) {i : Nat} (hi : i < n) :
    copyVia φ dst src n m (φ (dst + i)) = m (φ (src + i)) := by
  induction n generalizing dst src m i with
  | zero => exact absurd hi (Nat.not_lt_zero i)
  | succ n ih =>
    have hstep : ∀ (x j : Nat), x + 1 + j = x + (j + 1) := by
      intro x j
      omega
    rw [copyVia]
    cases i with
    | zero =>
      rw [copyVia_outside fun j hj he => ?_]
      · exact if_pos rfl
      · rw [hstep] at he
        exact absurd (hinj 0 n.succ_pos (j + 1) (Nat.succ_lt_succ hj) he) (Nat.succ_ne_zero j).symm
    | succ i =>
      have hlt := Nat.lt_of_succ_lt_succ hi
      rw [← hstep dst i, ih _ _ hlt, hstep src]
      · exact if_neg (hapart 0 n.succ_pos (i + 1) hi).symm
      · intro j hj k hk he
        rw [hstep, hstep] at he
        exact Nat.succ.inj (hinj _ (Nat.succ_lt_succ hj) _ (Nat.succ_lt_succ hk) he)
      · intro j hj k hk
        rw [hstep, hstep]
        exact hapart _ (Nat.succ_lt_succ hj) _ (Nat.succ_lt_succ hk)

theorem read32_eq_of_bytes {m' : Mem} (h : ∀ i < 4, m' (b + i) = m (a + i)) :
    m'.read32 b = m.read32 a := by
  have h0 : m' b = m a := h 0 (by decide)
  rw [read32, h0, h 1 (by decide), h 2 (by decide), h 3 (by decide), read32]

-- ---------------------------------------------------------------------------
-- Updating
-- ---------------------------------------------------------------------------

theorem updateWord_outside {x : Nat} (h : x < a ∨ a + 4 ≤ x) : updateWord f a m x = m x := by
  unfold updateWord
  cases f (m.read32 a) with
  | none => rfl
  | some w => exact write32_outside m h

theorem updateWord_apart (h : b + 4 ≤ a ∨ a + 4 ≤ b) : (updateWord f a m).read32 b = m.read32 b :=
  read32_congr fun _ _ _ => updateWord_outside (by omega)

theorem updateWord_self (hf : ∀ w x, f w = some x → x < 2 ^ 32) :
    (updateWord f a m).read32 a = (f (m.read32 a)).getD (m.read32 a) := by
  unfold updateWord
  cases hw : f (m.read32 a) with
  | none => rfl
  | some w => exact read32_write32 m a (hf _ w hw)

theorem updateDown_outside (hφ : WordsApart φ used) (hon : ∀ i < n, used (a + 4 * (i + 1)))
    (hb : used b) (h : ∀ i < n, b ≠ a + 4 * (i + 1)) :
    (updateDown φ f a n m).read32 (φ b) = m.read32 (φ b) := by
  induction n generalizing m with
  | zero => rfl
  | succ n ih =>
    have hlast := n.lt_succ_self
    rw [updateDown, ih (fun i hi => hon i (Nat.lt_trans hi hlast)) fun i hi => h i (Nat.lt_trans hi hlast)]
    exact updateWord_apart (hφ b _ hb (hon n hlast) (h n hlast))

theorem updateDown_on (hφ : WordsApart φ used) (hf : ∀ w x, f w = some x → x < 2 ^ 32)
    (hon : ∀ i < n, used (a + 4 * (i + 1))) {i : Nat} (hi : i < n) :
    (updateDown φ f a n m).read32 (φ (a + 4 * (i + 1))) =
      (f (m.read32 (φ (a + 4 * (i + 1))))).getD (m.read32 (φ (a + 4 * (i + 1)))) := by
  induction n generalizing m with
  | zero => exact absurd hi (Nat.not_lt_zero i)
  | succ n ih =>
    have hlast := n.lt_succ_self
    have hrest := fun j (hj : j < n) => hon j (Nat.lt_trans hj hlast)
    rw [updateDown]
    rcases Nat.lt_succ_iff_lt_or_eq.mp hi with hlt | rfl
    · have hne : a + 4 * (i + 1) ≠ a + 4 * (n + 1) := by omega
      rw [ih hrest hlt, updateWord_apart (hφ _ _ (hrest i hlt) (hon n hlast) hne)]
    · rw [updateDown_outside hφ hrest (hon i hlast) fun j hj => by omega]
      exact updateWord_self hf

end

end Shigure.Mem
