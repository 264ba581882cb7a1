import Mathlib.Algebra.GroupWithZero.Nat
import Mathlib.Data.List.Sort
import Mathlib.Order.Interval.Finset.Nat
import Shigure.Lib.Tiling

/-!
# Holes between live spans

If nothing of an area is lost, the free spans of a tiling are the longest runs of units
that are not live. So what is free can be told from what is live.
-/

namespace Shigure

/-- A longest run of units that are not live. -/
structure Hole (lo hi : Nat) (live : List Span) (f : Span) : Prop where
  pos : 0 < f.size
  within : f.Within lo hi
  apart : ∀ b ∈ live, b.Disjoint f
  left : f.base = lo ∨ ∃ b ∈ live, 0 < b.size ∧ b.stop = f.base
  right : f.stop = hi ∨ ∃ b ∈ live, 0 < b.size ∧ b.base = f.stop

section
variable {lo hi : Nat} {free free' live live' rest rest' : List Span} {f : Span}

theorem Hole.perm (h : Hole lo hi live f) (hp : live.Perm live') : Hole lo hi live' f :=
  ⟨h.pos, h.within, fun b hb => h.apart b (hp.mem_iff.mpr hb),
    h.left.imp_right fun ⟨b, hb, hs⟩ => ⟨b, hp.mem_iff.mp hb, hs⟩,
    h.right.imp_right fun ⟨b, hb, hs⟩ => ⟨b, hp.mem_iff.mp hb, hs⟩⟩

theorem hole_nil_iff : Hole lo hi [] f ↔ lo < hi ∧ f = ⟨lo, hi - lo⟩ := by
  obtain ⟨base, size⟩ := f
  simp only [Span.mk.injEq]
  constructor
  · rintro ⟨hpos, hin, -, hl | ⟨_, hb, -⟩, hr | ⟨_, hb', -⟩⟩
    · simp only [Span.Within, Span.stop] at *
      omega
    all_goals simp at *
  · rintro ⟨hlt, rfl, rfl⟩
    have hstop : Span.stop ⟨base, hi - base⟩ = hi := by
      simp only [Span.stop]
      omega
    exact ⟨by simp only; omega, ⟨le_rfl, hstop.le⟩, by simp, .inl rfl, .inl hstop⟩

-- ---------------------------------------------------------------------------
-- Free spans are holes
-- ---------------------------------------------------------------------------

theorem Covered.live_or_free (hc : Covered lo hi free live rest) (hr : ∀ g ∈ rest, g.size = 0)
    {x : Nat} (h1 : lo ≤ x) (h2 : x < hi) : (∃ b ∈ live, x ∈ b) ∨ ∃ f ∈ free, x ∈ f := by
  rcases hc x h1 h2 with hx | hx | ⟨g, hg, hx⟩
  · exact .inl hx
  · exact .inr hx
  · have := hr g hg
    rw [Span.mem_iff] at hx
    omega

theorem Tiling.hole (h : Tiling lo hi free live) (hc : Covered lo hi free live rest)
    (hr : ∀ g ∈ rest, g.size = 0) (hf : f ∈ free) : Hole lo hi live f := by
  have hpos := h.pos f hf
  have hin := h.freeIn f hf
  have hstop : f.stop = f.base + f.size := rfl
  obtain ⟨hlow, hhigh⟩ := hin
  have hother : ∀ g ∈ free, f = g ∨ f.stop < g.base ∨ g.stop < f.base := fun g hg => h.cases hf hg
  refine ⟨hpos, ⟨hlow, hhigh⟩, fun b hb => h.apart b hb f hf, ?_, ?_⟩
  · -- the unit before is live
    by_cases hlo : f.base = lo
    · exact .inl hlo
    · have hlt : lo < f.base := lt_of_le_of_ne hlow (Ne.symm hlo)
      refine .inr ?_
      rcases hc.live_or_free hr (x := f.base - 1) (by omega) (by omega) with ⟨b, hb, hx⟩ | ⟨g, hg, hx⟩
      · have hd := h.apart b hb f hf
        simp only [Span.mem_iff, Span.Disjoint, Span.stop] at *
        exact ⟨b, hb, by omega, by omega⟩
      · simp only [Span.mem_iff, Span.stop] at *
        rcases hother g hg with rfl | hg | hg <;> omega
  · by_cases hhi : f.stop = hi
    · exact .inl hhi
    · have hlt : f.stop < hi := lt_of_le_of_ne hhigh hhi
      refine .inr ?_
      rcases hc.live_or_free hr (x := f.stop) (by omega) hlt with ⟨b, hb, hx⟩ | ⟨g, hg, hx⟩
      · have hd := h.apart b hb f hf
        simp only [Span.mem_iff, Span.Disjoint, Span.stop] at *
        exact ⟨b, hb, by omega, by omega⟩
      · simp only [Span.mem_iff, Span.stop] at *
        rcases hother g hg with rfl | hg | hg <;> omega

/-- The free spans are the holes. -/
theorem Tiling.mem_iff_hole (h : Tiling lo hi free live) (hc : Covered lo hi free live rest)
    (hr : ∀ g ∈ rest, g.size = 0) : f ∈ free ↔ Hole lo hi live f := by
  refine ⟨h.hole hc hr, fun hf => ?_⟩
  have hpos := hf.pos
  have hin := hf.within
  have hstop : f.stop = f.base + f.size := rfl
  have hout : ∀ b ∈ live, ∀ x, f.base ≤ x → x < f.stop → x ∉ b := fun b hb x h1 h2 hx =>
    Span.disjoint_iff.mp (hf.apart b hb) x hx ⟨h1, h2⟩
  -- the free span that the hole starts in is the hole
  obtain ⟨g, hg, hx⟩ := (hc.live_or_free hr (x := f.base) hin.1 (by have := hin.2; omega)).resolve_left
    fun ⟨b, hb, hx⟩ => hout b hb f.base le_rfl (by omega) hx
  have hgin := h.freeIn g hg
  have hgout : ∀ b ∈ live, ∀ x, g.base ≤ x → x < g.stop → x ∉ b := fun b hb x h1 h2 hx =>
    Span.disjoint_iff.mp (h.apart b hb g hg) x hx ⟨h1, h2⟩
  obtain ⟨hx1, hx2⟩ : g.base ≤ f.base ∧ f.base < g.stop := hx
  have hbase : g.base = f.base := by
    refine le_antisymm hx1 (le_of_not_gt fun hlt => ?_)
    rcases hf.left with hlo | ⟨b, hb, hbpos, hbs⟩
    · have := hgin.1
      omega
    · have hbs' : b.stop = b.base + b.size := rfl
      exact hgout b hb (f.base - 1) (by omega) (by omega) ⟨by omega, by omega⟩
  have hend : g.stop = f.stop := by
    rcases Nat.lt_trichotomy g.stop f.stop with hlt | he | hlt
    · rcases (h.hole hc hr hg).right with hhi | ⟨b, hb, hbpos, hbs⟩
      · have := hin.2
        omega
      · have hbs' : b.stop = b.base + b.size := rfl
        exact absurd ⟨by omega, by omega⟩ (hout b hb g.stop (by omega) hlt)
    · exact he
    · rcases hf.right with hhi | ⟨b, hb, hbpos, hbs⟩
      · have := hgin.2
        omega
      · have hbs' : b.stop = b.base + b.size := rfl
        exact absurd ⟨by omega, by omega⟩ (hgout b hb f.stop (by omega) hlt)
  obtain ⟨base, size⟩ := f
  obtain ⟨base', size'⟩ := g
  simp only [Span.stop] at hbase hend
  obtain rfl := hbase
  obtain rfl : size' = size := by omega
  exact hg

theorem sorted_eq (hs : Sorted Span.base free) (hs' : Sorted Span.base free')
    (h : ∀ f, f ∈ free ↔ f ∈ free') : free = free' := by
  have : Std.Antisymm fun a b : Span => a.base < b.base := ⟨fun a b h h' => absurd h h'.asymm⟩
  have : Std.Irrefl fun a b : Span => a.base < b.base := ⟨fun a => lt_irrefl a.base⟩
  exact List.Pairwise.eq_of_mem_iff hs hs' h

/-- What is free depends on what is live alone. -/
theorem Tiling.determined (h : Tiling lo hi free live) (hc : Covered lo hi free live rest)
    (hr : ∀ g ∈ rest, g.size = 0) (h' : Tiling lo hi free' live') (hc' : Covered lo hi free' live' rest')
    (hr' : ∀ g ∈ rest', g.size = 0) (hp : live.Perm live') : free = free' := by
  refine sorted_eq h.sorted h'.sorted fun f => ?_
  rw [h.mem_iff_hole hc hr, h'.mem_iff_hole hc' hr']
  exact ⟨fun hf => hf.perm hp, fun hf => hf.perm hp.symm⟩

/-- With nothing live the area is in one piece. -/
theorem Tiling.whole (h : Tiling lo hi free []) (hc : Covered lo hi free [] rest)
    (hr : ∀ g ∈ rest, g.size = 0) (hlt : lo < hi) : free = [⟨lo, hi - lo⟩] := by
  refine sorted_eq h.sorted (List.pairwise_singleton _ _) fun f => ?_
  rw [h.mem_iff_hole hc hr, hole_nil_iff, List.mem_singleton]
  exact and_iff_right hlt

-- ---------------------------------------------------------------------------
-- How much there is
-- ---------------------------------------------------------------------------

theorem exists_units (hd : live.Pairwise Span.Disjoint) :
    ∃ units : Finset Nat, units.card = (live.map Span.size).sum ∧ ∀ x ∈ units, ∃ s ∈ live, x ∈ s := by
  induction live with
  | nil => exact ⟨∅, rfl, by simp⟩
  | cons s live ih =>
    obtain ⟨hs, hd⟩ := List.pairwise_cons.mp hd
    obtain ⟨units, hcard, hmem⟩ := ih hd
    have hapart : Disjoint (Finset.Ico s.base s.stop) units := by
      refine Finset.disjoint_left.mpr fun x hx hu => ?_
      obtain ⟨s', hs', hx'⟩ := hmem x hu
      exact Span.disjoint_iff.mp (hs s' hs') x (Finset.mem_Ico.mp hx) hx'
    refine ⟨Finset.Ico s.base s.stop ∪ units, ?_, fun x hx => ?_⟩
    · rw [Finset.card_union_of_disjoint hapart, Nat.card_Ico, hcard, List.map_cons, List.sum_cons,
        Span.stop, Nat.add_sub_cancel_left]
    · rcases Finset.mem_union.mp hx with hx | hx
      · exact ⟨s, List.mem_cons_self, Finset.mem_Ico.mp hx⟩
      · obtain ⟨s', hs', hx'⟩ := hmem x hx
        exact ⟨s', List.mem_cons_of_mem s hs', hx'⟩

theorem sum_size_le (hd : live.Pairwise Span.Disjoint) (hin : ∀ s ∈ live, s.Within lo hi) :
    (live.map Span.size).sum ≤ hi - lo := by
  obtain ⟨units, hcard, hmem⟩ := exists_units hd
  rw [← hcard, ← Nat.card_Ico]
  refine Finset.card_le_card fun x hx => Finset.mem_Ico.mpr ?_
  obtain ⟨s, hs, h1, h2⟩ := hmem x hx
  obtain ⟨hlo, hhi⟩ := hin s hs
  exact ⟨hlo.trans h1, h2.trans_le hhi⟩

end

end Shigure
