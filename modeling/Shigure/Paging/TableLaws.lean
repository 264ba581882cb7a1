import Shigure.Paging.Tables
import Shigure.Pm.Single

/-!
# Laws of the page tables

What each function of the paging code does to the tables, the directories and
the frames.
-/

namespace Shigure.Paging

open Pm (FrameState frameSize pmalloc pfree freeFrames)
open Vm (Block)

-- ---------------------------------------------------------------------------
-- Entries
-- ---------------------------------------------------------------------------

theorem low_present : Low pagePresent := by decide

theorem low_rw : Low pageRw := by decide

theorem low_user : Low pageUser := by decide

theorem low_accessed : Low pageAccessed := by decide

theorem low_dirty : Low pageDirty := by decide

section
variable {s s' : VmState} {p q : Slot} {pte : BitVec 32} {n : Nat}

theorem pteToPfn_rw : pteToPfn pageRw = 0 := high_low low_rw

theorem pteToPfn_zero : pteToPfn 0 = 0 := high_low (by decide)

def frameEntry (pfn : Nat) (kernel writable : Bool) : BitVec 32 :=
  let pte := BitVec.ofNat 32 pfn <<< 12 ||| pagePresent
  let pte := if !kernel then pte ||| pageUser else pte
  if writable then pte ||| pageRw else pte

theorem pteToPfn_frameEntry (h : n < 2 ^ 20) (kernel writable : Bool) :
    pteToPfn (frameEntry n kernel writable) = n := by
  cases kernel <;> cases writable <;>
    simp only [frameEntry, pteToPfn, Bool.not_false, Bool.not_true, Bool.false_eq_true, ↓reduceIte,
      high_or _ low_rw, high_or _ low_user, high_or _ low_present, high_shiftLeft h]

theorem frameEntry_present (n : Nat) (kernel writable : Bool) :
    anyOf (frameEntry n kernel writable) pagePresent = true := by
  have hself : anyOf pagePresent pagePresent = true := by decide
  cases kernel <;> cases writable <;>
    simp only [frameEntry, Bool.not_false, Bool.not_true, Bool.false_eq_true, ↓reduceIte,
      anyOf_or, hself, Bool.or_true, Bool.true_or]

theorem frameEntry_rw (n : Nat) (kernel : Bool) :
    anyOf (frameEntry n kernel true) pageRw = true := by
  have hself : anyOf pageRw pageRw = true := by decide
  simp only [frameEntry, ↓reduceIte, anyOf_or, hself, Bool.or_true]

theorem frameEntry_user (n : Nat) : anyOf (frameEntry n false false) pageRw = false ∧
    anyOf (frameEntry n false false) pageUser = true := by
  have hflags : anyOf pagePresent pageRw = false ∧ anyOf pageUser pageRw = false ∧
      anyOf pageUser pageUser = true := by decide
  simp only [frameEntry, Bool.not_false, Bool.false_eq_true, ↓reduceIte, anyOf_or, hflags,
    anyOf_shiftLeft _ low_rw, Bool.or_false, Bool.or_true, and_self]

theorem high_addFlag (src dst : BitVec 32) {f : BitVec 32} (hf : Low f) :
    high (if anyOf src f then dst ||| f else dst) = high dst := by
  split
  · exact high_or _ hf
  · rfl

theorem pteToPfn_cloneFlags (src dst : BitVec 32) :
    pteToPfn (cloneFlags src dst) = pteToPfn dst := by
  simp only [pteToPfn, cloneFlags, List.foldl_cons, List.foldl_nil]
  rw [high_addFlag _ _ low_dirty, high_addFlag _ _ low_accessed, high_addFlag _ _ low_user,
    high_addFlag _ _ low_rw, high_addFlag _ _ low_present]

theorem anyOf_foldl (src dst f : BitVec 32) (flags : List (BitVec 32)) :
    anyOf (flags.foldl (fun dst flag => if anyOf src flag then dst ||| flag else dst) dst) f =
      (anyOf dst f || flags.any fun flag => anyOf src flag && anyOf flag f) := by
  induction flags generalizing dst with
  | nil => simp
  | cons g flags ih =>
    rw [List.foldl_cons, ih, List.any_cons, ← Bool.or_assoc]
    congr 1
    cases hg : anyOf src g with
    | true => rw [if_pos rfl, anyOf_or, Bool.true_and]
    | false => rw [if_neg Bool.false_ne_true, Bool.false_and, Bool.or_false]

theorem anyOf_cloneFlags (src dst : BitVec 32) :
    anyOf (cloneFlags src dst) pagePresent = (anyOf dst pagePresent || anyOf src pagePresent) ∧
    anyOf (cloneFlags src dst) pageRw = (anyOf dst pageRw || anyOf src pageRw) ∧
    anyOf (cloneFlags src dst) pageUser = (anyOf dst pageUser || anyOf src pageUser) := by
  have hsame : anyOf pagePresent pagePresent = true ∧ anyOf pageRw pageRw = true ∧
      anyOf pageUser pageUser = true := by decide
  have hother : anyOf pageRw pagePresent = false ∧ anyOf pageUser pagePresent = false ∧
      anyOf pageAccessed pagePresent = false ∧ anyOf pageDirty pagePresent = false ∧
      anyOf pagePresent pageRw = false ∧ anyOf pageUser pageRw = false ∧
      anyOf pageAccessed pageRw = false ∧ anyOf pageDirty pageRw = false ∧
      anyOf pagePresent pageUser = false ∧ anyOf pageRw pageUser = false ∧
      anyOf pageAccessed pageUser = false ∧ anyOf pageDirty pageUser = false := by decide
  refine ⟨?_, ?_, ?_⟩ <;> simp [cloneFlags, anyOf_foldl, hsame, hother, -List.foldl_cons]

@[simp] theorem entry_setEntry_self : (s.setEntry p pte).entry p = pte := by
  simp [VmState.entry, VmState.setEntry]

theorem entry_setEntry_ne (h : q ≠ p) : (s.setEntry p pte).entry q = s.entry q := by
  obtain ⟨t, i⟩ := p
  obtain ⟨u, j⟩ := q
  simp only [ne_eq, Slot.mk.injEq] at h
  simp only [VmState.entry, VmState.setEntry, if_neg h]

@[simp] theorem setEntry_phys : (s.setEntry p pte).phys = s.phys := rfl

theorem setEntry_setEntry (pte' : BitVec 32) :
    (s.setEntry p pte).setEntry p pte' = s.setEntry p pte' := by
  simp only [VmState.setEntry]
  congr 1
  funext t i
  split <;> rfl

theorem entry_setTable (t : Nat) (es : Nat → BitVec 32) :
    (s.setTable t es).entry p = if p.table = t then es p.index else s.entry p := by
  simp only [VmState.entry, VmState.setTable]
  split <;> rfl

-- ---------------------------------------------------------------------------
-- Allocation
-- ---------------------------------------------------------------------------

variable {vaddr paddr size pd t : Nat} {pa : BitVec 32} {al kernel writable : Bool}

theorem ikmalloc_heap {k k' : Vm.KHeap.KState} {size v : Nat} {al : Bool} (hk : s.kheap = some k)
    (h : Vm.KHeap.ikmalloc size al k = some (v, k')) :
    ikmalloc size al s = some (v, kernelPhys v s, { s with
      kheap := some k'
      held := if v = 0 then s.held else ⟨v - Vm.headerSize, size⟩ :: s.held }) := by
  rw [ikmalloc, hk]
  simp only [h, Option.bind_eq_bind, Option.bind_some]

theorem ikmalloc_same (h : ikmalloc size al s = some (t, pa, s')) :
    ∃ place kheap placed held, s' =
      { s with placementAddress := place, kheap := kheap, placed := placed, held := held } := by
  rw [ikmalloc] at h
  cases hk : s.kheap with
  | some kheap =>
    rw [hk] at h
    obtain ⟨⟨v, kheap'⟩, -, h⟩ := Option.bind_eq_some_iff.mp h
    simp only [Option.some.injEq, Prod.mk.injEq] at h
    exact ⟨_, _, _, _, h.2.2.symm⟩
  | none =>
    rw [hk] at h
    simp only [Option.some.injEq, Prod.mk.injEq] at h
    exact ⟨_, _, _, _, h.2.2.symm⟩

theorem allocFrame_same (h : allocFrame p kernel writable s = some s') :
    ∃ frames tables, s' = { s with frames := frames, pageTables := tables } := by
  rw [allocFrame] at h
  split at h
  · obtain rfl := Option.some.inj h
    exact ⟨_, _, rfl⟩
  · dsimp only at h
    split at h
    · cases h
    · obtain rfl := Option.some.inj h
      exact ⟨_, _, rfl⟩

/-- All that a call of `alloc_frame` can do. -/
theorem allocFrame_cases (hl : s.frames.Layout) (h : allocFrame p kernel writable s = some s') :
    (pteToPfn (s.entry p) ≠ 0 ∧ s' = s) ∨
    (pteToPfn (s.entry p) = 0 ∧ ∃ i frames, IsLeast (freeFrames s.frames) i ∧ frames.Layout ∧
      frames.nframes = s.frames.nframes ∧ freeFrames frames = freeFrames s.frames \ {i} ∧
      s' = { s with frames := frames }.setEntry p (frameEntry i kernel writable)) := by
  rw [allocFrame] at h
  split at h
  · exact .inl ⟨‹_›, (Option.some.inj h).symm⟩
  · rename_i h0
    rcases Pm.pmalloc_freeFrames hl with ⟨i, hi, hr, hfree⟩ | ⟨-, hr, -⟩
    · refine .inr ⟨of_not_not h0, i, _, hi, Pm.Layout.pmalloc hl _, Pm.pmalloc_nframes _ _, hfree, ?_⟩
      simp only [hr] at h
      rw [if_neg (by omega)] at h
      rw [← Option.some.inj h, frameEntry, BitVec.ofInt_natCast]
    · simp only [hr] at h
      cases h

theorem allocFrame_new {f : Nat} (hl : s.frames.Layout) (h0 : pteToPfn (s.entry p) = 0)
    (hf : IsLeast (freeFrames s.frames) f) (kernel writable : Bool) :
    ∃ frames : FrameState, frames.Layout ∧ frames.nframes = s.frames.nframes ∧
      freeFrames frames = freeFrames s.frames \ {f} ∧ allocFrame p kernel writable s =
        some ({ s with frames := frames }.setEntry p (frameEntry f kernel writable)) := by
  rcases Pm.pmalloc_freeFrames hl with ⟨i, hi, hr, hfree⟩ | ⟨hnone, -, -⟩
  · obtain rfl := hf.unique hi
    refine ⟨_, Pm.Layout.pmalloc hl _, Pm.pmalloc_nframes _ _, hfree, ?_⟩
    rw [allocFrame, if_neg (not_not_intro h0)]
    simp only [hr]
    rw [if_neg (by omega), frameEntry, BitVec.ofInt_natCast]
  · exact absurd hf.1 (hnone ▸ Set.notMem_empty f)

/-- All that a call of `get_page` that may make a table can do. -/
theorem getPage_cases (h : getPage vaddr pd true s = some (p, s')) :
    ((s.pageDirectories pd).tables (pdIndex vaddr) ≠ 0 ∧ p = findPage vaddr pd s ∧ s' = s) ∨
    ((s.pageDirectories pd).tables (pdIndex vaddr) = 0 ∧ ∃ t pa s₁,
      ikmalloc pageTableSize true s = some (t, pa, s₁) ∧
      ((t = 0 ∧ p = .null ∧ s' = s₁) ∨
        (t ≠ 0 ∧ p = ⟨t, ptIndex vaddr⟩ ∧
          s' = { s₁.setTable t fun _ => pageRw with made := t :: s₁.made }.setPde pd
            (pdIndex vaddr) t (pa ||| pagePresent ||| pageRw)))) := by
  rw [getPage] at h
  split at h
  · obtain ⟨⟨t, pa, s₁⟩, hi, h⟩ := Option.bind_eq_some_iff.mp h
    refine .inr ⟨‹_›, t, pa, s₁, hi, ?_⟩
    dsimp only at h
    split at h
    · cases h
      exact .inl ⟨‹_›, rfl, rfl⟩
    · cases h
      exact .inr ⟨‹_›, rfl, rfl⟩
  · cases h
    exact .inl ⟨‹_›, rfl, rfl⟩

theorem getPage_phys (h : getPage vaddr pd true s = some (p, s')) : s'.phys = s.phys := by
  rcases getPage_cases h with ⟨-, -, rfl⟩ | ⟨-, t, pa, s₁, hi, ⟨-, -, rfl⟩ | ⟨-, -, rfl⟩⟩
  · rfl
  · obtain ⟨_, _, _, _, rfl⟩ := ikmalloc_same hi
    rfl
  · obtain ⟨_, _, _, _, rfl⟩ := ikmalloc_same hi
    rfl

theorem getPage_new {s₁ : VmState} (h0 : (s.pageDirectories pd).tables (pdIndex vaddr) = 0)
    (hi : ikmalloc pageTableSize true s = some (t, pa, s₁)) (ht : t ≠ 0) :
    getPage vaddr pd true s = some (⟨t, ptIndex vaddr⟩,
      { s₁.setTable t fun _ => pageRw with made := t :: s₁.made }.setPde pd
        (pdIndex vaddr) t (pa ||| pagePresent ||| pageRw)) := by
  rw [getPage, if_pos h0]
  simp only [Bool.not_true, Bool.false_eq_true, ↓reduceIte, hi, Option.bind_eq_bind,
    Option.bind_some, if_neg ht]

theorem getPage_old (h0 : (s.pageDirectories pd).tables (pdIndex vaddr) ≠ 0) :
    getPage vaddr pd true s =
      some (⟨(s.pageDirectories pd).tables (pdIndex vaddr), ptIndex vaddr⟩, s) := by
  rw [getPage, if_neg h0, findPage, if_neg h0]

theorem kernelPhys_page {a : Nat} (h : BitVec.ofNat 32 a &&& 0xFFF = 0#32) : kernelPhys a s =
    BitVec.ofNat 32 (pteToPfn (s.entry (findPage a s.kernelPd s))) <<< 12 := by
  rw [kernelPhys, h, BitVec.add_zero]
  exact and_high _

-- ---------------------------------------------------------------------------
-- Clones
-- ---------------------------------------------------------------------------

/-- All that the clone of one entry into another table can do. -/
theorem cloneEntry_cases {src dst i : Nat} (hl : s.frames.Layout)
    (hn : s.frames.nframes ≤ 2 ^ 20) (hne : src ≠ dst) (h0 : pteToPfn (s.entry ⟨dst, i⟩) = 0)
    (h : cloneEntry src dst i s = some s') :
    (pteToPfn (s.entry ⟨src, i⟩) = 0 ∧ s' = s.setEntry ⟨dst, i⟩ pageRw) ∨
    (pteToPfn (s.entry ⟨src, i⟩) ≠ 0 ∧ ∃ f frames phys, IsLeast (freeFrames s.frames) f ∧
      frames.Layout ∧ frames.nframes = s.frames.nframes ∧
      freeFrames frames = freeFrames s.frames \ {f} ∧
      phys = copyPhysicalPage (pteToPfn (s.entry ⟨src, i⟩) * frameSize) (f * frameSize) s.phys ∧
      s' = { s with frames := frames, phys := phys }.setEntry ⟨dst, i⟩
        (cloneFlags (s.entry ⟨src, i⟩) (frameEntry f false false))) := by
  have hslot : (⟨src, i⟩ : Slot) ≠ ⟨dst, i⟩ := by simp [hne]
  rw [cloneEntry] at h
  split at h
  · exact .inl ⟨‹_›, (Option.some.inj h).symm⟩
  · refine .inr ⟨‹_›, ?_⟩
    obtain ⟨s₁, ha, h⟩ := Option.bind_eq_some_iff.mp h
    rcases allocFrame_cases hl ha with ⟨hnz, -⟩ | ⟨-, f, frames, hf, hl', hn', hfree, rfl⟩
    · exact absurd h0 hnz
    · have hsrc : VmState.entry { s with frames := frames } ⟨src, i⟩ = s.entry ⟨src, i⟩ := rfl
      have hpfn : pteToPfn (cloneFlags (s.entry ⟨src, i⟩) (frameEntry f false false)) = f := by
        rw [pteToPfn_cloneFlags, pteToPfn_frameEntry (hf.1.1.trans_le hn)]
      simp only [entry_setEntry_self, entry_setEntry_ne hslot, hsrc, hpfn, setEntry_setEntry,
        setEntry_phys] at h
      generalize hphys : copyPhysicalPage _ _ _ = phys at h
      exact ⟨f, frames, phys, hf, hl', hn', hfree, hphys.symm, (Option.some.inj h).symm⟩

theorem cloneEntry_same {src dst i : Nat} (h : cloneEntry src dst i s = some s') :
    ∃ frames tables phys, s' = { s with frames := frames, pageTables := tables, phys := phys } := by
  rw [cloneEntry] at h
  split at h
  · obtain rfl := Option.some.inj h
    exact ⟨_, _, _, rfl⟩
  · obtain ⟨s₁, ha, h⟩ := Option.bind_eq_some_iff.mp h
    obtain ⟨frames, tables, rfl⟩ := allocFrame_same ha
    obtain rfl := Option.some.inj h
    exact ⟨_, _, _, rfl⟩

theorem cloneEntries_same {src dst : Nat} {is : List Nat} (h : cloneEntries src dst is s = some s') :
    ∃ frames tables phys, s' = { s with frames := frames, pageTables := tables, phys := phys } := by
  induction is generalizing s with
  | nil =>
    obtain rfl := Option.some.inj h
    exact ⟨_, _, _, rfl⟩
  | cons i is ih =>
    obtain ⟨s₁, h1, h⟩ := Option.bind_eq_some_iff.mp h
    obtain ⟨_, _, _, rfl⟩ := cloneEntry_same h1
    obtain ⟨_, _, _, rfl⟩ := ih h
    exact ⟨_, _, _, rfl⟩

theorem clonePageTable_some {src : Nat} (h : clonePageTable src s = some (t, pa, s')) :
    ∃ s₁, ikmalloc pageTableSize true s = some (t, pa, s₁) ∧
      cloneEntries src t (List.range ptEntries)
        { s₁.setTable t fun _ => 0 with made := t :: s₁.made } = some s' := by
  rw [clonePageTable] at h
  generalize List.range ptEntries = is at h ⊢
  obtain ⟨⟨t', pa', s₁⟩, hi, h⟩ := Option.bind_eq_some_iff.mp h
  obtain ⟨s₂, he, h⟩ := Option.bind_eq_some_iff.mp h
  cases h
  exact ⟨s₁, hi, he⟩

theorem clonePageDirectory_some {src : Nat} (h : clonePageDirectory src s = some (pd, s')) :
    ∃ pa s₁, ikmalloc pageDirectorySize true s = some (pd, pa, s₁) ∧
      clonePdes src pd (List.range pdEntries)
        { s₁.setDirectory pd ⟨fun _ => 0, fun _ => 0, pa⟩ with
          directories := pd :: s₁.directories } = some s' := by
  rw [clonePageDirectory] at h
  generalize List.range pdEntries = is at h ⊢
  obtain ⟨⟨pd', pa, s₁⟩, hi, h⟩ := Option.bind_eq_some_iff.mp h
  obtain ⟨s₂, he, h⟩ := Option.bind_eq_some_iff.mp h
  cases h
  exact ⟨pa, s₁, hi, he⟩

end

end Shigure.Paging
