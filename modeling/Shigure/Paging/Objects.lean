import Shigure.Paging.TableLaws
import Shigure.Vm.KHeapRuns

/-!
# Where tables and directories live

Once there is a heap, `ikmalloc` takes page tables and page directories out of
it. Together with those placed before, they are distinct objects, and a new one
is none of the old ones.
-/

namespace Shigure.Paging

open Vm (Block headerSize pageSize)
open Vm.KHeap (KState Good NoWrap kheapStart kheapEnd)

def VmState.objects (s : VmState) : List Nat := s.made ++ s.directories

/-- Every object was placed before the heap or is a block of it. -/
structure Sound (s : VmState) : Prop where
  heap : ∃ kheap t, s.kheap = some kheap ∧ Good kheap s.held t
  nonzero : 0 ∉ s.objects
  home : ∀ a ∈ s.objects, a < kheapStart ∨ ∃ b ∈ s.held, b.ptr = a
  nodup : s.objects.Nodup

structure NewBlock (s : VmState) (a size : Nat) : Prop where
  block : ∃ b ∈ s.held, b.ptr = a
  apart : a ∉ s.objects
  low : kheapStart ≤ a
  high : a + size ≤ kheapEnd
  aligned : pageSize ∣ a

section
variable {s s' : VmState} {a size : Nat} {pa : BitVec 32}

theorem Sound.congr (h : Sound s) (hk : s'.kheap = s.kheap) (hh : s'.held = s.held)
    (ho : s'.objects.Perm s.objects) : Sound s' := by
  refine ⟨by rw [hk, hh]; exact h.heap, fun h0 => h.nonzero (ho.mem_iff.mp h0), fun a ha => ?_,
    ho.nodup_iff.mpr h.nodup⟩
  rw [hh]
  exact h.home a (ho.mem_iff.mp ha)

theorem Sound.ikmalloc_block (h : Sound s) {pageAlign : Bool} (hw : NoWrap pageAlign size)
    (hi : ikmalloc size pageAlign s = some (a, pa, s')) :
    (∃ kheap held, s' = { s with kheap := kheap, held := held }) ∧ Sound s' ∧
      pa = kernelPhys a s ∧ (a = 0 ∧ s'.held = s.held ∨
        a ≠ 0 ∧ s'.held = ⟨a - headerSize, size⟩ :: s.held ∧ (∃ b ∈ s'.held, b.ptr = a) ∧
        (∀ b ∈ s.held, b.ptr ≠ a) ∧ kheapStart ≤ a ∧ a + size ≤ kheapEnd ∧
        (pageAlign = true → pageSize ∣ a)) := by
  obtain ⟨kheap, t, hk, hgood⟩ := h.heap
  rw [Paging.ikmalloc, hk] at hi
  obtain ⟨⟨v, kheap'⟩, hm, hi⟩ := Option.bind_eq_some_iff.mp hi
  simp only [Option.some.injEq, Prod.mk.injEq] at hi
  obtain ⟨rfl, rfl, rfl⟩ := hi
  refine ⟨⟨_, _, rfl⟩, ?_⟩
  rcases hgood.ikmalloc hw hm with ⟨rfl, rfl⟩ | ⟨hle, hal, t', hgood'⟩
  · rw [if_pos rfl]
    exact ⟨⟨⟨_, t, rfl, hgood⟩, h.nonzero, h.home, h.nodup⟩, rfl, .inl ⟨rfl, rfl⟩⟩
  · have hne : v ≠ 0 := by
      simp only [headerSize] at hle
      omega
    have hptr : Block.ptr ⟨v - headerSize, size⟩ = v := Nat.sub_add_cancel hle
    rw [if_neg hne]
    refine ⟨⟨⟨_, t', rfl, hgood'⟩, h.nonzero, fun a ha => ?_, h.nodup⟩, rfl, .inr ⟨hne, rfl, ?_⟩⟩
    · exact (h.home a ha).imp_right (Exists.imp fun b hb => ⟨List.mem_cons_of_mem _ hb.1, hb.2⟩)
    · obtain ⟨hlo, hhi⟩ := hgood'.block_in List.mem_cons_self
      simp only at hlo hhi
      exact ⟨⟨_, List.mem_cons_self, hptr⟩,
        fun b hb he => hgood'.block_ne hb (he.trans hptr.symm), by omega, by omega, hal⟩

theorem Sound.ikmalloc (h : Sound s) (hw : NoWrap true size)
    (hi : ikmalloc size true s = some (a, pa, s')) :
    (∃ kheap held, s' = { s with kheap := kheap, held := held }) ∧ Sound s' ∧
      pa = kernelPhys a s ∧ (a ≠ 0 → NewBlock s' a size) := by
  obtain ⟨hsame, hs, hpa, hblock⟩ := h.ikmalloc_block hw hi
  refine ⟨hsame, hs, hpa, fun h0 => ?_⟩
  obtain ⟨ha, -⟩ | ⟨-, -, hb, hfresh, hlo, hhi, hal⟩ := hblock
  · exact absurd ha h0
  · refine ⟨hb, fun hin => ?_, hlo, hhi, hal rfl⟩
    have hold : a ∈ s.objects := by
      obtain ⟨_, _, rfl⟩ := hsame
      exact hin
    rcases h.home a hold with hlt | ⟨b, hb, he⟩
    · omega
    · exact hfresh b hb he

theorem Sound.add (h : Sound s) (hb : NewBlock s a size) (hk : s'.kheap = s.kheap)
    (hh : s'.held = s.held) (ho : s'.objects.Perm (a :: s.objects)) : Sound s' := by
  have hne : a ≠ 0 := by
    rintro rfl
    exact absurd hb.low (by decide)
  refine ⟨by rw [hk, hh]; exact h.heap, fun h0 => ?_, fun b hb' => ?_, ?_⟩
  · rcases List.mem_cons.mp (ho.mem_iff.mp h0) with he | h0
    · exact hne he.symm
    · exact h.nonzero h0
  · rw [hh]
    rcases List.mem_cons.mp (ho.mem_iff.mp hb') with rfl | hb'
    · exact .inr hb.block
    · exact h.home b hb'
  · exact ho.nodup_iff.mpr (List.nodup_cons.mpr ⟨hb.apart, h.nodup⟩)

theorem Sound.addTable (h : Sound s) (hb : NewBlock s a size) (hk : s'.kheap = s.kheap)
    (hh : s'.held = s.held) (hm : s'.made = a :: s.made) (hd : s'.directories = s.directories) :
    Sound s' := by
  refine h.add hb hk hh ?_
  rw [VmState.objects, hm, hd, VmState.objects]
  exact List.Perm.refl _

theorem Sound.addDirectory (h : Sound s) (hb : NewBlock s a size) (hk : s'.kheap = s.kheap)
    (hh : s'.held = s.held) (hm : s'.made = s.made) (hd : s'.directories = a :: s.directories) :
    Sound s' := by
  refine h.add hb hk hh ?_
  rw [VmState.objects, hm, hd, VmState.objects]
  exact List.perm_middle

end

end Shigure.Paging
