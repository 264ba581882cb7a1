import Shigure.Lib.Holes
import Shigure.Vm.HeapRuns

/-!
# The free tree is what the live blocks leave

As long as no alignment skips a byte and expansions are used up, `heap_free` brings all
back together: the blocks of the free tree are the longest runs of bytes that no live
block covers, however the heap came there.
-/

namespace Shigure.Vm

open Avl

def HeapCall.skips (s : RunState) : HeapCall → Nat
  | .imalloc _ size pageAlign => (fragment pageAlign size s.hs).size
  | _ => 0

def HeapCall.Tight (s : RunState) (c : HeapCall) : Prop := c.Keeps s ∧ c.skips s = 0

instance : Decidable (HeapCall.Tight s c) := inferInstanceAs (Decidable (_ ∧ _))

section
variable {a : Area} {s₀ s s' : RunState} {c : HeapCall}

theorem fragment_unaligned (size : Nat) (hs : HeapState) : (fragment false size hs).size = 0 := rfl

theorem fragments_step (h : ∀ g ∈ s.fragments, g.size = 0) (hc : c.Tight s)
    (hstep : c.step s = some s') : ∀ g ∈ s'.fragments, g.size = 0 := by
  cases c with
  | imalloc node size pageAlign =>
    obtain ⟨-, hz⟩ := hc
    simp only [HeapCall.step, bind, Option.bind_eq_some_iff, Option.some.injEq] at hstep
    obtain ⟨⟨p, hs⟩, -, rfl⟩ := hstep
    split
    · exact h
    · intro g hg
      rcases List.mem_cons.mp hg with rfl | hg
      · exact hz
      · exact h g hg
  | ifree node b =>
    simp only [HeapCall.step, bind, Option.bind_eq_some_iff, Option.some.injEq] at hstep
    obtain ⟨_, -, rfl⟩ := hstep
    exact h
  | store addr value =>
    obtain rfl := Option.some.inj hstep
    exact h

/-- What the runs keep: the spans tile the area, and all of it. -/
structure Full (s : RunState) : Prop where
  tiling : Tiling s.hs.heap.startAddr s.hs.heap.endAddr (spans s.hs.heap.root) (s.live.map Block.span)
  covered : Covered s.hs.heap.startAddr s.hs.heap.endAddr (spans s.hs.heap.root)
    (s.live.map Block.span) (s.fragments.filter (·.size ≤ headerSize))
  none : ∀ g ∈ s.fragments.filter (·.size ≤ headerSize), g.size = 0

theorem full_of_run (h0 : a.init = some s₀) (hr : Reach HeapCall.Tight HeapCall.step s₀ s) : Full s := by
  have hinit : s₀.fragments = [] := by
    simp only [Area.init, bind, Option.bind_eq_some_iff, Option.some.injEq] at h0
    obtain ⟨_, -, rfl⟩ := h0
    rfl
  obtain ⟨hgood, hcov⟩ := a.init_spec h0
  have hlost : NothingLost s₀ := by
    rw [NothingLost, hinit]
    exact hcov
  obtain ⟨hgood', hlost', hzero⟩ := hr.invariant
    (fun s => Good s.hs s.live ∧ NothingLost s ∧ ∀ g ∈ s.fragments, g.size = 0)
    ⟨hgood, hlost, by rw [hinit]; simp⟩ fun _ _ _ h hc hstep =>
      ⟨h.1.step hc.1.legal hstep, h.2.1.step h.1 hc.1 hstep, fragments_step h.2.2 hc hstep⟩
  exact ⟨hgood'.tiling, hlost', fun g hg => hzero g (List.mem_of_mem_filter hg)⟩

/-- The free tree has exactly the longest runs of bytes that are not live: it does not
matter in which order blocks were taken and given back, and when all have been given
back the area is in one piece again. -/
theorem free_is_not_live (h0 : a.init = some s₀) (hr : Reach HeapCall.Tight HeapCall.step s₀ s) :
    (∀ f, f ∈ spans s.hs.heap.root ↔
      Hole s.hs.heap.startAddr s.hs.heap.endAddr (s.live.map Block.span) f) ∧
    (∀ (a' : Area) (s₀' s' : RunState), a'.init = some s₀' → Reach HeapCall.Tight HeapCall.step s₀' s' →
      s'.hs.heap.startAddr = s.hs.heap.startAddr → s'.hs.heap.endAddr = s.hs.heap.endAddr →
      s'.live.Perm s.live → spans s'.hs.heap.root = spans s.hs.heap.root) ∧
    (s.live = [] → s.hs.heap.startAddr < s.hs.heap.endAddr → spans s.hs.heap.root =
      [⟨s.hs.heap.startAddr, s.hs.heap.endAddr - s.hs.heap.startAddr⟩]) := by
  have h := full_of_run h0 hr
  refine ⟨fun f => h.tiling.mem_iff_hole h.covered h.none, ?_, fun hlive hlt => ?_⟩
  · intro a' s₀' s' h0' hr' hlo hhi hp
    have h' := full_of_run h0' hr'
    obtain ⟨ht, hc, hn⟩ := h'
    rw [hlo, hhi] at ht hc
    exact ht.determined hc hn h.tiling h.covered h.none (hp.map _)
  · obtain ⟨ht, hc, hn⟩ := h
    rw [hlive, List.map_nil] at ht hc
    exact ht.whole hc hn hlt

/-- Three blocks that are given back, the one in the middle last. -/
theorem free_is_not_live_again : ∃ s : RunState, s.fragments.length = 3 ∧
    spans s.hs.heap.root = [⟨0x400000, 0x4000⟩] := by
  obtain ⟨s, hr, hlen, hlive, hlo, hhi⟩ := Reach.exists_of_exec HeapCall.Tight
    HeapCall.step fourPagesInit (fun s => s.fragments.length = 3 ∧ s.live = [] ∧
      s.hs.heap.startAddr = 0x400000 ∧ s.hs.heap.endAddr = 0x404000)
    [.imalloc 0x200 0x10 false, .imalloc 0x300 0x18 false, .imalloc 0x400 0xFF0 false,
      .ifree 0x500 ⟨0x400000, 0x10⟩, .ifree 0x600 ⟨0x400038, 0xFF0⟩,
      .ifree 0x700 ⟨0x400018, 0x18⟩] (by decide +kernel)
  have hwhole := (free_is_not_live (a := fourPages) (Option.some_get _).symm hr).2.2 hlive
    (by rw [hlo, hhi]; decide)
  rw [hlo, hhi] at hwhole
  exact ⟨s, hlen, hwhole⟩

end

end Shigure.Vm
