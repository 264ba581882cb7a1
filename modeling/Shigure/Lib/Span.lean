import Mathlib.Data.List.Pairwise

/-!
# Spans of addresses

A span is the half-open range `[base, base + size)` of natural numbers. It may
be empty; an empty span is disjoint from every other.
-/

namespace Shigure

structure Span where
  base : Nat
  size : Nat
  deriving DecidableEq, Repr

namespace Span

def stop (s : Span) : Nat := s.base + s.size

instance : Membership Nat Span := ⟨fun s x => s.base ≤ x ∧ x < s.stop⟩

theorem mem_iff {s : Span} {x : Nat} : x ∈ s ↔ s.base ≤ x ∧ x < s.base + s.size := Iff.rfl

instance (x : Nat) (s : Span) : Decidable (x ∈ s) := decidable_of_iff _ mem_iff.symm

def Disjoint (a b : Span) : Prop :=
  a.size = 0 ∨ b.size = 0 ∨ a.stop ≤ b.base ∨ b.stop ≤ a.base

instance (a b : Span) : Decidable (a.Disjoint b) := by
  unfold Disjoint
  infer_instance

theorem disjoint_iff {a b : Span} : a.Disjoint b ↔ ∀ x ∈ a, x ∉ b := by
  simp only [Disjoint, mem_iff, stop]
  constructor
  · intro h x hx hx'
    omega
  · intro h
    have ha := h a.base
    have hb := h b.base
    omega

theorem Disjoint.symm {a b : Span} (h : a.Disjoint b) : b.Disjoint a := by
  simp only [Disjoint] at h ⊢
  omega

instance : Std.Symm Disjoint := ⟨fun _ _ h => h.symm⟩

def Within (s : Span) (lo hi : Nat) : Prop := lo ≤ s.base ∧ s.stop ≤ hi

instance (s : Span) (lo hi : Nat) : Decidable (s.Within lo hi) := by
  unfold Within
  infer_instance

end Span

end Shigure
