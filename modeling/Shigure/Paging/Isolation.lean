import Shigure.Paging.Clone

/-!
# Cloning copies and isolates

What the CPU sees through a page directory, and that a clone shows the same
bytes, shares the tables of the kernel, and shares nothing else.
-/

namespace Shigure.Paging

open Pm (FrameState frameSize freeFrames)

/-- The frame of an address: the entries of the directory and of the table have to
be present. -/
def frameAt (s : VmState) (pd vaddr : Nat) : Option Nat :=
  let d := s.pageDirectories pd
  let pte := s.entry ⟨d.tables (pdIndex vaddr), ptIndex vaddr⟩
  if anyOf (d.entries (pdIndex vaddr)) pagePresent && anyOf pte pagePresent then some (pteToPfn pte)
  else none

def physAddr (s : VmState) (pd vaddr : Nat) : Option Nat :=
  (frameAt s pd vaddr).map fun f => f * frameSize + vaddr % frameSize

def loadByte (s : VmState) (pd vaddr : Nat) : Option (BitVec 8) :=
  (physAddr s pd vaddr).map s.phys

def storeByte (s : VmState) (pd vaddr : Nat) (value : BitVec 8) : VmState :=
  match physAddr s pd vaddr with
  | some a => { s with phys := s.phys.set a value }
  | none => s

/-- The address is under a table of the kernel. -/
def Shared (s : VmState) (pd vaddr : Nat) : Prop :=
  (s.pageDirectories pd).tables (pdIndex vaddr) ≠ 0 ∧
    (s.pageDirectories pd).tables (pdIndex vaddr) =
      (s.pageDirectories s.kernelPd).tables (pdIndex vaddr)

/-- A store of one byte through `pd` changes no byte that is seen through `pd'`,
whatever memory holds by then. -/
def Hidden (s : VmState) (pd vaddr pd' : Nat) : Prop :=
  ∀ m value w, w < wordSize →
    loadByte (storeByte { s with phys := m } pd vaddr value) pd' w =
      loadByte { s with phys := m } pd' w

/-- The present entries of the directory are those with a table, and entries with a
frame number other than 0 are present and do not share frames. -/
structure Separate (s : VmState) (pd : Nat) : Prop where
  tables : ∀ i < pdEntries, anyOf ((s.pageDirectories pd).entries i) pagePresent = true ↔
    (s.pageDirectories pd).tables i ≠ 0
  present : ∀ v < wordSize, (s.pageDirectories pd).tables (pdIndex v) ≠ 0 →
    pteToPfn (s.entry (findPage v pd s)) ≠ 0 →
    anyOf (s.entry (findPage v pd s)) pagePresent = true
  apart : ∀ v < wordSize, ∀ w < wordSize, ∀ f ≠ 0, frameAt s pd v = some f →
    frameAt s pd w = some f → v / frameSize = w / frameSize

structure IsClone (s s' : VmState) (src pd : Nat) : Prop where
  shared : ∀ v < wordSize, Shared s src v →
    findPage v pd s' = findPage v src s ∧ frameAt s' pd v = frameAt s src v
  copied : ∀ v < wordSize, ¬ Shared s src v → ∀ f ≠ 0, frameAt s src v = some f →
    ∃ g ∈ freeFrames s.frames, g ∉ freeFrames s'.frames ∧ frameAt s' pd v = some g ∧
      ∀ k < frameSize, s'.phys (g * frameSize + k) = s.phys (f * frameSize + k)
  unmapped : ∀ v < wordSize, ¬ Shared s src v → (∀ f, frameAt s src v = some f → f = 0) →
    frameAt s' pd v = none
  directory : s'.pageDirectories src = s.pageDirectories src
  entries : ∀ v < wordSize, s'.entry (findPage v src s') = s.entry (findPage v src s)
  contents : ∀ v < wordSize, ¬ Shared s src v → ∀ f, frameAt s src v = some f →
    ∀ k < frameSize, s'.phys (f * frameSize + k) = s.phys (f * frameSize + k)
  hiddenFromClone : ∀ v < wordSize, ¬ Shared s' src v → Hidden s' src v pd
  hiddenFromSource : ∀ v < wordSize, ¬ Shared s' pd v → Hidden s' pd v src

section
variable {s s' : VmState} {src pd pd' v w f : Nat}

-- ---------------------------------------------------------------------------
-- Addresses
-- ---------------------------------------------------------------------------

theorem pdIndex_lt (hv : v < wordSize) : pdIndex v < pdEntries := by
  simp only [pdIndex, Nat.shiftRight_eq_div_pow, wordSize, pdEntries] at *
  omega

theorem ptIndex_eq : ptIndex v = v / frameSize % 1024 := by
  rw [ptIndex, Nat.shiftRight_eq_div_pow]
  exact Nat.and_two_pow_sub_one_eq_mod (v / 2 ^ 12) 10

theorem ptIndex_lt : ptIndex v < ptEntries := by
  rw [ptIndex_eq]
  exact Nat.mod_lt _ (by decide)

theorem page_eq : v / frameSize = 1024 * pdIndex v + ptIndex v := by
  simp only [ptIndex_eq, pdIndex, Nat.shiftRight_eq_div_pow, frameSize]
  omega

theorem findPage_of_table (h : (s.pageDirectories pd).tables (pdIndex v) ≠ 0) :
    findPage v pd s = ⟨(s.pageDirectories pd).tables (pdIndex v), ptIndex v⟩ := if_neg h

theorem frameAt_eq_some : frameAt s pd v = some f ↔
    anyOf ((s.pageDirectories pd).entries (pdIndex v)) pagePresent = true ∧
      anyOf (s.entry ⟨(s.pageDirectories pd).tables (pdIndex v), ptIndex v⟩) pagePresent = true ∧
      pteToPfn (s.entry ⟨(s.pageDirectories pd).tables (pdIndex v), ptIndex v⟩) = f := by
  simp only [frameAt, Bool.and_eq_true, Option.ite_none_right_eq_some, Option.some.injEq, and_assoc]

theorem frameAt_absent (h : anyOf ((s.pageDirectories pd).entries (pdIndex v)) pagePresent ≠ true) :
    frameAt s pd v = none := by
  simp only [frameAt, Bool.and_eq_true, eq_false h, false_and, ↓reduceIte]

theorem frameAt_empty (h : s.entry ⟨(s.pageDirectories pd).tables (pdIndex v), ptIndex v⟩ = pageRw) :
    frameAt s pd v = none := by
  simp only [frameAt, h, Bool.and_eq_true, show anyOf pageRw pagePresent = false by decide,
    Bool.false_eq_true, and_false, ↓reduceIte]

/-- A store is hidden from a directory that maps no address to its frame. -/
theorem hidden_of_frames (h : ∀ f, frameAt s pd v = some f → ∀ w < wordSize,
    frameAt s pd' w ≠ some f) : Hidden s pd v pd' := by
  intro m value w hw
  have hframe : ∀ m', frameAt { s with phys := m' } = frameAt s := fun _ => rfl
  cases hf : frameAt s pd v with
  | none => rw [storeByte, physAddr, hframe, hf]; rfl
  | some f =>
    rw [storeByte, physAddr, hframe, hf, loadByte, loadByte, physAddr, physAddr]
    simp only [Option.map_some, Option.map_map, hframe]
    cases hg : frameAt s pd' w with
    | none => rfl
    | some g =>
      have hne : g ≠ f := fun he => h f hf w hw (he ▸ hg)
      simp only [Option.map_some, Function.comp_apply, Mem.set, Option.some.injEq]
      refine if_neg ?_
      have := Nat.mod_lt v (show 0 < frameSize by decide)
      have := Nat.mod_lt w (show 0 < frameSize by decide)
      simp only [frameSize] at *
      omega

-- ---------------------------------------------------------------------------
-- The clone
-- ---------------------------------------------------------------------------

inductive ClonedAt (s s' : VmState) (src pd v : Nat) : Prop
  | shared (hsrc : Shared s src v) (hclone : Shared s' pd v)
      (hpage : findPage v pd s' = findPage v src s) (hframe : frameAt s' pd v = frameAt s src v)
  | empty (hsrc : ¬ Shared s src v) (hclone : ¬ Shared s' pd v)
      (hzero : ∀ f, frameAt s src v = some f → f = 0) (hframe : frameAt s' pd v = none)
  | copied (hsrc : ¬ Shared s src v) (hclone : ¬ Shared s' pd v) (f g : Nat) (hne : f ≠ 0)
      (hold : frameAt s src v = some f) (hframe : frameAt s' pd v = some g)
      (hnew : g ∈ freeFrames s.frames) (hused : g ∉ freeFrames s'.frames)
      (hbytes : ∀ k < frameSize, s'.phys (g * frameSize + k) = s.phys (f * frameSize + k))

theorem ClonedDirectory.kernelTable (h : ClonedDirectory s s' src pd) (hc : Source s src) (i : Nat) :
    (s'.pageDirectories s'.kernelPd).tables i = (s.pageDirectories s.kernelPd).tables i := by
  rw [h.kernelPd, h.old hc.kernelDirectory]

theorem ClonedDirectory.entry (h : ClonedDirectory s s' src pd) {p : Slot} (hp : p.table ∈ s.made) :
    s'.entry p = s.entry p := by
  simp only [VmState.entry, h.tables _ (.inl hp)]

theorem ClonedDirectory.clonedAt (h : ClonedDirectory s s' src pd) (hc : Source s src)
    (hs : Separate s src) (hv : v < wordSize) : ClonedAt s s' src pd v := by
  have hi := pdIndex_lt hv
  have hk := h.kernelTable hc (pdIndex v)
  cases h.pdes _ hi with
  | absent hsrc htable hpde =>
    refine .empty (fun hsh => hsh.1 hsrc) (fun hsh => hsh.1 htable) (fun f hf => ?_) ?_
    · rw [frameAt_absent fun hp => (hs.tables _ hi).mp hp hsrc] at hf
      cases hf
    · refine frameAt_absent ?_
      rw [hpde]
      decide
  | linked hsrc hkernel htable hpde =>
    have hmade := (hc.srcTables (pdIndex v)).resolve_left hsrc
    refine .shared ⟨hsrc, hkernel⟩ ⟨htable ▸ hsrc, by rw [htable, hk, hkernel]⟩ ?_ ?_
    · rw [findPage_of_table (htable ▸ hsrc), findPage_of_table hsrc, htable]
    · have he : s'.entry ⟨(s.pageDirectories src).tables (pdIndex v), ptIndex v⟩ =
          s.entry ⟨(s.pageDirectories src).tables (pdIndex v), ptIndex v⟩ := h.entry hmade
      simp only [frameAt, htable, hpde, he]
  | copied hsrc hkernel hnew hpde hentries =>
    have hsh : ¬ Shared s src v := fun hsh => hkernel hsh.2
    have hsh' : ¬ Shared s' pd v := by
      rintro ⟨h0, he⟩
      rw [hk] at he
      exact hnew.fresh (he ▸ (hc.kernelTables (pdIndex v)).resolve_left (he ▸ h0))
    have hpres : anyOf ((s.pageDirectories src).entries (pdIndex v)) pagePresent = true :=
      (hs.tables _ hi).mpr hsrc
    have hpres' : anyOf ((s'.pageDirectories pd).entries (pdIndex v)) pagePresent = true := by
      rw [hpde, anyOf_or, anyOf_or, anyOf_or, show anyOf pagePresent pagePresent = true by decide]
      simp only [Bool.or_true, Bool.true_or]
    have hold := hs.present v hv hsrc
    rw [findPage_of_table hsrc] at hold
    rcases hentries (ptIndex v) ptIndex_lt with ⟨hz, he⟩ | ⟨hz, g, hg, hg', he, hbytes⟩
    · refine .empty hsh hsh' (fun f hf => ?_) (frameAt_empty he)
      exact ((frameAt_eq_some.mp hf).2.2).symm.trans hz
    · refine .copied hsh hsh' _ g hz (frameAt_eq_some.mpr ⟨hpres, hold hz, rfl⟩)
        (frameAt_eq_some.mpr ⟨hpres', ?_, ?_⟩) hg hg' hbytes
      · rw [he, (anyOf_cloneFlags _ _).1, hold hz, Bool.or_true]
      · rw [he, pteToPfn_cloneFlags, pteToPfn_frameEntry (hg.1.trans_le hc.small)]

theorem Separate.table (hs : Separate s src) (hv : v < wordSize) (hf : frameAt s src v = some f) :
    (s.pageDirectories src).tables (pdIndex v) ≠ 0 :=
  (hs.tables _ (pdIndex_lt hv)).mp (frameAt_eq_some.mp hf).1

theorem Source.frame_used (hc : Source s src) (hs : Separate s src) (hv : v < wordSize)
    (hf : frameAt s src v = some f) : f ∉ freeFrames s.frames := by
  obtain ⟨-, hp, rfl⟩ := frameAt_eq_some.mp hf
  exact hc.used _ (pdIndex_lt hv) (hs.table hv hf) _ ptIndex_lt (.inr hp)

theorem Source.same_page (hc : Source s src) (hs : Separate s src) (hv : v < wordSize)
    (hw : w < wordSize) (hf : frameAt s src v = some f) (hf' : frameAt s src w = some f) :
    v / frameSize = w / frameSize := by
  by_cases h0 : f = 0
  · subst h0
    obtain ⟨-, hp, he⟩ := frameAt_eq_some.mp hf
    obtain ⟨-, hp', he'⟩ := frameAt_eq_some.mp hf'
    obtain ⟨hi, hj⟩ := hc.lone _ (pdIndex_lt hv) _ (pdIndex_lt hw) (hs.table hv hf)
      (hs.table hw hf') _ ptIndex_lt _ ptIndex_lt (.inr hp) (.inr hp') he he'
    rw [page_eq, page_eq, hi, hj]
  · exact hs.apart v hv w hw f h0 hf hf'

theorem shared_congr (h : v / frameSize = w / frameSize) (hsh : Shared s pd w) : Shared s pd v := by
  have hi : pdIndex v = pdIndex w := by
    simp only [pdIndex, Nat.shiftRight_eq_div_pow, frameSize] at *
    omega
  rw [Shared, hi]
  exact hsh

section
variable (h : ClonedDirectory s s' src pd) (hc : Source s src)
include h hc

theorem ClonedDirectory.source : s'.pageDirectories src = s.pageDirectories src :=
  h.old hc.srcDirectory

theorem ClonedDirectory.shared_source : Shared s' src v ↔ Shared s src v := by
  rw [Shared, h.source hc, h.kernelTable hc, Shared]

theorem ClonedDirectory.entry_source (h0 : 0 ∉ s'.made) (i j : Nat) :
    s'.entry ⟨(s.pageDirectories src).tables i, j⟩ = s.entry ⟨(s.pageDirectories src).tables i, j⟩ := by
  simp only [VmState.entry]
  rw [h.tables]
  rcases hc.srcTables i with hz | hin
  · exact .inr (hz ▸ h0)
  · exact .inl hin

theorem ClonedDirectory.frameAt_source (h0 : 0 ∉ s'.made) : frameAt s' src v = frameAt s src v := by
  simp only [frameAt, h.source hc, h.entry_source hc h0]

end

end

end Shigure.Paging
