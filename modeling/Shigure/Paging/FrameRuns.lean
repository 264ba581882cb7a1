import Shigure.Lib.Reach
import Shigure.Paging.TableLaws

/-!
# Frames have one owner

Any sequence of calls that make tables, give frames to page table entries, take
them away and clone. A frame number other than 0 stands in one entry at most,
and the frame is not free. Frame 0 is different: its number is the mark of an
entry without a frame, so an entry that gets it may get another frame later.
-/

namespace Shigure.Paging

open Pm (FrameState frameSize pmalloc pfree freeFrames)

def Mapped (pte : BitVec 32) : Prop := pteToPfn pte ≠ 0 ∨ anyOf pte pagePresent = true

structure Owned (s : VmState) : Prop where
  layout : s.frames.Layout
  small : s.frames.nframes ≤ 2 ^ 20
  pointers : ∀ pd i, (s.pageDirectories pd).tables i = 0 ∨ (s.pageDirectories pd).tables i ∈ s.made
  used : ∀ p : Slot, p.table ∈ s.made → Mapped (s.entry p) →
    pteToPfn (s.entry p) < s.frames.nframes ∧ pteToPfn (s.entry p) ∉ freeFrames s.frames
  apart : ∀ p q : Slot, p.table ∈ s.made → q.table ∈ s.made → Mapped (s.entry p) →
    Mapped (s.entry q) → pteToPfn (s.entry p) = pteToPfn (s.entry q) → p = q

section
variable {s s' s₁ : VmState} {p q : Slot} {pte : BitVec 32} {f t pd i : Nat}
variable {kernel writable : Bool} {frames : FrameState}

theorem not_mapped_rw : ¬ Mapped pageRw := by
  rintro (h | h)
  · exact h pteToPfn_rw
  · exact absurd h (by decide)

theorem not_mapped_zero : ¬ Mapped 0 := by
  rintro (h | h)
  · exact h pteToPfn_zero
  · exact absurd h (by decide)

/-- Only the bit for writing is left. -/
theorem not_mapped_and_rw (pte : BitVec 32) : ¬ Mapped (pte &&& pageRw) := by
  rintro (hm | hm)
  · exact hm (high_and _ low_rw)
  · rw [anyOf, BitVec.and_assoc, show pageRw &&& pagePresent = 0#32 by decide,
      BitVec.and_zero] at hm
    exact absurd hm (by decide)

-- ---------------------------------------------------------------------------
-- What keeps the owners apart
-- ---------------------------------------------------------------------------

theorem Owned.lt (h : Owned s) (hf : f ∈ freeFrames s.frames) : f < 2 ^ 20 :=
  hf.1.trans_le h.small

theorem Owned.congr (h : Owned s) (ht : s'.pageTables = s.pageTables)
    (hf : s'.frames = s.frames) (hm : s'.made = s.made)
    (hp : ∀ pd i, (s'.pageDirectories pd).tables i = 0 ∨ (s'.pageDirectories pd).tables i ∈ s.made) :
    Owned s' := by
  have he : s'.entry = s.entry := by
    funext p
    simp only [VmState.entry, ht]
  constructor
  · rw [hf]
    exact h.layout
  · rw [hf]
    exact h.small
  · rw [hm]
    exact hp
  · rw [hf, hm, he]
    exact h.used
  · rw [hm, he]
    exact h.apart

theorem Owned.ikmalloc {size : Nat} {al : Bool} {pa : BitVec 32} (h : Owned s)
    (hi : ikmalloc size al s = some (t, pa, s')) : Owned s' ∧ s'.made = s.made := by
  obtain ⟨_, _, _, _, rfl⟩ := ikmalloc_same hi
  exact ⟨h.congr rfl rfl rfl h.pointers, rfl⟩

theorem Owned.setPde (h : Owned s) (ht : t = 0 ∨ t ∈ s.made) : Owned (s.setPde pd i t pte) := by
  refine h.congr rfl rfl rfl fun d j => ?_
  simp only [VmState.setPde, VmState.setDirectory]
  split
  · dsimp only
    split
    · exact ht
    · exact h.pointers pd j
  · exact h.pointers d j

/-- An entry loses its frame number, the frame stays in use. -/
theorem Owned.clear (h : Owned s) (hpte : ¬ Mapped pte) : Owned (s.setEntry p pte) := by
  have hne : ∀ q, Mapped ((s.setEntry p pte).entry q) → q ≠ p := by
    rintro q hm rfl
    rw [entry_setEntry_self] at hm
    exact hpte hm
  refine ⟨h.layout, h.small, h.pointers, fun q hq hm => ?_, fun q r hq hr hm hm' he => ?_⟩
  · have hqp := hne q hm
    rw [entry_setEntry_ne hqp] at hm ⊢
    exact h.used q hq hm
  · have hqp := hne q hm
    have hrp := hne r hm'
    rw [entry_setEntry_ne hqp, entry_setEntry_ne hrp] at he
    rw [entry_setEntry_ne hqp] at hm
    rw [entry_setEntry_ne hrp] at hm'
    exact h.apart q r hq hr hm hm' he

theorem Owned.give (h : Owned s) (hf : f ∈ freeFrames s.frames) (hl : frames.Layout)
    (hn : frames.nframes = s.frames.nframes) (hfree : freeFrames frames = freeFrames s.frames \ {f})
    (hpte : pteToPfn pte = f) : Owned ({ s with frames := frames }.setEntry p pte) := by
  have hother : ∀ q : Slot, q ≠ p → q.table ∈ s.made → Mapped (s.entry q) →
      pteToPfn (s.entry q) ≠ f := fun q _ hq hm he => (h.used q hq hm).2 (he ▸ hf)
  refine ⟨hl, hn ▸ h.small, h.pointers, fun q hq hm => ?_, fun q r hq hr hm hm' he => ?_⟩
  · show _ < frames.nframes ∧ _ ∉ freeFrames frames
    rw [hn, hfree]
    by_cases hqp : q = p
    · subst hqp
      rw [entry_setEntry_self, hpte]
      exact ⟨hf.1, by simp⟩
    · rw [entry_setEntry_ne hqp] at hm ⊢
      exact (h.used q hq hm).imp_right fun hnot hin => hnot hin.1
  · by_cases hqp : q = p <;> by_cases hrp : r = p
    · rw [hqp, hrp]
    · subst hqp
      rw [entry_setEntry_self, hpte, entry_setEntry_ne hrp] at he
      rw [entry_setEntry_ne hrp] at hm'
      exact absurd he.symm (hother r hrp hr hm')
    · subst hrp
      rw [entry_setEntry_self, hpte, entry_setEntry_ne hqp] at he
      rw [entry_setEntry_ne hqp] at hm
      exact absurd he (hother q hqp hq hm)
    · rw [entry_setEntry_ne hqp, entry_setEntry_ne hrp] at he
      rw [entry_setEntry_ne hqp] at hm
      rw [entry_setEntry_ne hrp] at hm'
      exact h.apart q r hq hr hm hm' he

theorem Owned.recolor (h : Owned s) (hpte : pteToPfn pte = pteToPfn (s.entry p))
    (hp : Mapped (s.entry p)) : Owned (s.setEntry p pte) := by
  have hsame : ∀ q, pteToPfn ((s.setEntry p pte).entry q) = pteToPfn (s.entry q) := fun q => by
    by_cases hqp : q = p
    · subst hqp
      rw [entry_setEntry_self, hpte]
    · rw [entry_setEntry_ne hqp]
  have hmapped : ∀ q, Mapped ((s.setEntry p pte).entry q) → Mapped (s.entry q) := fun q hm => by
    by_cases hqp : q = p
    · exact hqp ▸ hp
    · rwa [entry_setEntry_ne hqp] at hm
  refine ⟨h.layout, h.small, h.pointers, fun q hq hm => ?_, fun q r hq hr hm hm' he => ?_⟩
  · rw [hsame]
    exact h.used q hq (hmapped q hm)
  · rw [hsame, hsame] at he
    exact h.apart q r hq hr (hmapped q hm) (hmapped r hm') he

theorem Owned.newTable (h : Owned s) (hpte : ¬ Mapped pte) :
    Owned { s.setTable t fun _ => pte with made := t :: s.made } := by
  have hold : ∀ q : Slot, q.table ∈ t :: s.made → q.table ≠ t → q.table ∈ s.made :=
    fun q hq hne => (List.mem_cons.mp hq).resolve_left hne
  have hentry : ∀ q : Slot, VmState.entry { s.setTable t fun _ => pte with made := t :: s.made } q =
      if q.table = t then pte else s.entry q := fun q => entry_setTable t fun _ => pte
  refine ⟨h.layout, h.small, fun d j => ?_, fun q hq hm => ?_, fun q r hq hr hm hm' he => ?_⟩
  · exact (h.pointers d j).imp_right (List.mem_cons_of_mem t)
  · rw [hentry] at hm ⊢
    split at hm
    · exact absurd hm hpte
    · rw [if_neg ‹_›]
      exact h.used q (hold q hq ‹_›) hm
  · rw [hentry, hentry] at he
    rw [hentry] at hm hm'
    split at hm
    · exact absurd hm hpte
    · split at hm'
      · exact absurd hm' hpte
      · rw [if_neg ‹_›, if_neg ‹_›] at he
        exact h.apart q r (hold q hq ‹_›) (hold r hr ‹_›) hm hm' he

-- ---------------------------------------------------------------------------
-- One call
-- ---------------------------------------------------------------------------

theorem Owned.allocFrame (h : Owned s) (ha : allocFrame p kernel writable s = some s') :
    Owned s' ∧ s'.made = s.made := by
  rcases allocFrame_cases h.layout ha with ⟨-, rfl⟩ | ⟨-, f, frames, hf, hl, hn, hfree, rfl⟩
  · exact ⟨h, rfl⟩
  · exact ⟨h.give hf.1 hl hn hfree (pteToPfn_frameEntry (h.lt hf.1) kernel writable), rfl⟩

theorem allocFrame_mapped (h : Owned s) (ha : Paging.allocFrame p kernel writable s = some s') :
    Mapped (s'.entry p) := by
  rcases allocFrame_cases h.layout ha with ⟨h0, rfl⟩ | ⟨-, f, frames, -, -, -, -, rfl⟩
  · exact .inl h0
  · rw [entry_setEntry_self]
    exact .inr (frameEntry_present f kernel writable)

theorem Owned.freeFrame (h : Owned s) (hp : p.table ∈ s.made) : Owned (freeFrame p s) := by
  rw [Paging.freeFrame]
  split
  · exact h
  · rename_i h0
    obtain ⟨hlt, -⟩ := h.used p hp (.inl h0)
    have hnot := not_mapped_and_rw (s.entry p)
    have hc := h.clear (p := p) hnot
    refine ⟨hc.layout.congr Pm.pfree_buddyBitmaps Pm.pfree_nframes,
      (Pm.pfree_nframes).trans_le h.small, hc.pointers, fun q hq hm => ?_, hc.apart⟩
    have hq' := hc.used q hq hm
    refine ⟨Pm.pfree_nframes.symm ▸ hq'.1, fun hin => ?_⟩
    rw [show freeFrames (VmState.frames _) = _ from Pm.pfree_freeFrames h.layout hlt] at hin
    rcases hin with he | hin
    · -- the frame stands in no other entry
      have hqp : q ≠ p := by
        rintro rfl
        exact hnot (by simpa [VmState.entry, VmState.setEntry] using hm)
      have hqe : pteToPfn (s.entry q) = pteToPfn (s.entry p) := by
        rw [← he]
        exact congrArg pteToPfn (entry_setEntry_ne (s := s) hqp).symm
      exact hqp (h.apart q p hq hp (.inl (hqe ▸ h0)) (.inl h0) hqe)
    · exact hq'.2 hin

theorem Owned.getPage {vaddr : Nat} (h : Owned s) (hg : getPage vaddr pd true s = some (p, s')) :
    Owned s' := by
  rcases getPage_cases hg with ⟨-, -, rfl⟩ | ⟨-, t, pa, s₁, hi, ⟨-, -, rfl⟩ | ⟨-, -, rfl⟩⟩
  · exact h
  · exact (h.ikmalloc hi).1
  · exact ((h.ikmalloc hi).1.newTable not_mapped_rw).setPde (.inr List.mem_cons_self)

theorem Owned.cloneEntry {src dst : Nat} (h : Owned s) (hc : cloneEntry src dst i s = some s') :
    Owned s' ∧ s'.made = s.made := by
  rw [Paging.cloneEntry] at hc
  split at hc
  · obtain rfl := Option.some.inj hc
    exact ⟨h.clear not_mapped_rw, rfl⟩
  · obtain ⟨s₁, ha, hc⟩ := Option.bind_eq_some_iff.mp hc
    obtain rfl := Option.some.inj hc
    obtain ⟨h1, hmade⟩ := h.allocFrame ha
    have h2 := h1.recolor (pteToPfn_cloneFlags (s₁.entry ⟨src, i⟩) _) (allocFrame_mapped h ha)
    exact ⟨h2.congr rfl rfl rfl h2.pointers, hmade⟩

theorem Owned.cloneEntries {src dst : Nat} {is : List Nat} (h : Owned s)
    (hc : cloneEntries src dst is s = some s') : Owned s' ∧ s'.made = s.made := by
  induction is generalizing s with
  | nil =>
    obtain rfl := Option.some.inj hc
    exact ⟨h, rfl⟩
  | cons i is ih =>
    obtain ⟨s₁, h1, hc⟩ := Option.bind_eq_some_iff.mp hc
    obtain ⟨ho, hm⟩ := h.cloneEntry h1
    obtain ⟨ho', hm'⟩ := ih ho hc
    exact ⟨ho', hm'.trans hm⟩

theorem Owned.clonePageTable {src : Nat} {pa : BitVec 32} (h : Owned s)
    (hc : clonePageTable src s = some (t, pa, s')) : Owned s' ∧ s'.made = t :: s.made := by
  obtain ⟨s₁, hi, he⟩ := clonePageTable_some hc
  obtain ⟨h1, hm1⟩ := h.ikmalloc hi
  obtain ⟨h2, hm2⟩ := (h1.newTable not_mapped_zero).cloneEntries he
  exact ⟨h2, by rw [hm2, ← hm1]⟩

theorem Owned.clonePde {src dst : Nat} (h : Owned s) (hc : clonePde src dst i s = some s') :
    Owned s' := by
  rw [Paging.clonePde] at hc
  split at hc
  · obtain rfl := Option.some.inj hc
    exact h.setPde (h.pointers dst i)
  · split at hc
    · obtain rfl := Option.some.inj hc
      exact h.setPde (h.pointers src i)
    · obtain ⟨⟨t, pa, s₁⟩, ht, hc⟩ := Option.bind_eq_some_iff.mp hc
      obtain rfl := Option.some.inj hc
      obtain ⟨h1, hm⟩ := h.clonePageTable ht
      exact h1.setPde (.inr (by rw [hm]; exact List.mem_cons_self))

theorem Owned.clonePdes {src dst : Nat} {is : List Nat} (h : Owned s)
    (hc : clonePdes src dst is s = some s') : Owned s' := by
  induction is generalizing s with
  | nil =>
    obtain rfl := Option.some.inj hc
    exact h
  | cons i is ih =>
    obtain ⟨s₁, h1, hc⟩ := Option.bind_eq_some_iff.mp hc
    exact ih (h.clonePde h1) hc

theorem Owned.clonePageDirectory {src dst : Nat} (h : Owned s)
    (hc : clonePageDirectory src s = some (dst, s')) : Owned s' := by
  obtain ⟨pa, s₁, hi, he⟩ := clonePageDirectory_some hc
  obtain ⟨h1, -⟩ := h.ikmalloc hi
  refine Owned.clonePdes ?_ he
  refine h1.congr rfl rfl rfl fun pd i => ?_
  simp only [VmState.setDirectory]
  split
  · exact .inl rfl
  · exact h1.pointers pd i

-- ---------------------------------------------------------------------------
-- Runs
-- ---------------------------------------------------------------------------

inductive FrameCall
  | getPage (vaddr pd : Nat)
  | allocFrame (page : Slot) (kernel writable : Bool)
  | freeFrame (page : Slot)
  | clonePageTable (src : Nat)
  | clonePageDirectory (src : Nat)

def FrameCall.step (s : VmState) : FrameCall → Option VmState
  | .getPage vaddr pd => (Paging.getPage vaddr pd true s).map Prod.snd
  | .allocFrame page kernel writable => Paging.allocFrame page kernel writable s
  | .freeFrame page => some (Paging.freeFrame page s)
  | .clonePageTable src => (Paging.clonePageTable src s).map fun r => r.2.2
  | .clonePageDirectory src => (Paging.clonePageDirectory src s).map Prod.snd

def VmState.HasSlot (s : VmState) (p : Slot) : Prop := p.table ∈ s.made ∧ p.index < ptEntries

/-- A caller names entries of page tables that were made. -/
def FrameCall.Legal (s : VmState) : FrameCall → Prop
  | .getPage _ _ => True
  | .allocFrame page _ _ => s.HasSlot page
  | .freeFrame page => s.HasSlot page
  | .clonePageTable src => src ∈ s.made
  | .clonePageDirectory _ => True

instance : Decidable (s.HasSlot p) := inferInstanceAs (Decidable (_ ∧ _))

instance : Decidable (FrameCall.Legal s c) := by
  cases c <;> unfold FrameCall.Legal <;> infer_instance

theorem Owned.step {c : FrameCall} (h : Owned s) (hc : c.Legal s) (hs : c.step s = some s') :
    Owned s' := by
  cases c with
  | getPage vaddr pd =>
    obtain ⟨⟨p, s₁⟩, hg, rfl⟩ := Option.map_eq_some_iff.mp hs
    exact h.getPage hg
  | allocFrame page kernel writable => exact (h.allocFrame hs).1
  | freeFrame page =>
    obtain rfl := Option.some.inj hs
    exact h.freeFrame hc.1
  | clonePageTable src =>
    obtain ⟨⟨t, pa, s₁⟩, ht, rfl⟩ := Option.map_eq_some_iff.mp hs
    exact (h.clonePageTable ht).1
  | clonePageDirectory src =>
    obtain ⟨⟨pd, s₁⟩, hd, rfl⟩ := Option.map_eq_some_iff.mp hs
    exact h.clonePageDirectory hd

/-- No tables, and the frames as `frame_initialize` leaves them. A frame number fits
a page table entry, since `pm_usable` is an `int`. -/
structure Fresh (m : Pm.Machine) (s : VmState) : Prop where
  made : s.made = []
  tables : ∀ pd i, (s.pageDirectories pd).tables i = 0
  frames : s.frames = (Pm.boot m).fs
  small : m.nframes ≤ 2 ^ 20

theorem Fresh.owned {m : Pm.Machine} (h : Fresh m s) : Owned s where
  layout := h.frames ▸ Pm.boot_layout
  small := h.frames ▸ h.small
  pointers pd i := .inl (h.tables pd i)
  used p hp := by
    rw [h.made] at hp
    cases hp
  apart p q hp := by
    rw [h.made] at hp
    cases hp

/-- In every run, two entries of page tables never hold the same frame number other
than 0, and the order-0 bitmap never offers a frame that an entry holds. -/
theorem frames_never_aliased {m : Pm.Machine} {s₀ : VmState} (h0 : Fresh m s₀)
    (hr : Reach FrameCall.Legal FrameCall.step s₀ s) :
    (∀ p q : Slot, s.HasSlot p → s.HasSlot q → p ≠ q → pteToPfn (s.entry p) ≠ 0 →
      pteToPfn (s.entry p) ≠ pteToPfn (s.entry q)) ∧
    ∀ p : Slot, s.HasSlot p → pteToPfn (s.entry p) ≠ 0 →
      s.frames.bit 0 (pteToPfn (s.entry p)) = false := by
  have h : Owned s := hr.invariant Owned h0.owned fun _ _ _ h hc hs => h.step hc hs
  constructor
  · intro p q hp hq hne hp0 he
    exact hne (h.apart p q hp.1 hq.1 (.inl hp0) (.inl (he ▸ hp0)) he)
  · intro p hp hp0
    obtain ⟨hlt, hnot⟩ := h.used p hp.1 (.inl hp0)
    rw [← Bool.not_eq_true]
    exact fun hbit => hnot ⟨hlt, hbit⟩

/-- A kernel directory without tables, and two frames. -/
def twoFrames : VmState where
  placementAddress := 0x300000
  kheap := none
  frames := (Pm.boot Pm.twoFrames).fs
  pageTables _ _ := 0
  pageDirectories _ := ⟨fun _ => pageRw, fun _ => 0, 0x200000⟩
  kernelPd := 0x200000
  currentPd := 0x200000
  phys _ := 0
  placed := []
  held := []
  made := []
  directories := [0x200000]

theorem frames_never_aliased_two : ∃ s : VmState, pteToPfn (s.entry ⟨0x300000, 1⟩) = 1 ∧
    s.frames.bit 0 1 = false := by
  obtain ⟨s, hr, hp, he⟩ := Reach.exists_of_exec FrameCall.Legal FrameCall.step twoFrames
    (fun s => s.HasSlot ⟨0x300000, 1⟩ ∧ pteToPfn (s.entry ⟨0x300000, 1⟩) = 1)
    [.getPage 0x1000 0x200000, .allocFrame ⟨0x300000, 0⟩ false true,
      .allocFrame ⟨0x300000, 1⟩ false true] (by decide +kernel)
  have h0 : Fresh Pm.twoFrames twoFrames := ⟨rfl, fun _ _ => rfl, rfl, by decide⟩
  have hbit := (frames_never_aliased h0 hr).2 _ hp (by rw [he]; decide)
  exact ⟨s, he, he ▸ hbit⟩

-- ---------------------------------------------------------------------------
-- Giving a frame to an entry and taking it back
-- ---------------------------------------------------------------------------

/-- Two calls of `alloc_frame` take one frame, and `free_frame` gives it back. -/
def Inverse (p : Slot) (kernel writable : Bool) (s : VmState) : Prop :=
  ∃ f s₁ s₂, allocFrame p kernel writable s = some s₁ ∧
    allocFrame p kernel writable s₁ = some s₂ ∧ f ∈ freeFrames s.frames ∧
    freeFrames s₂.frames = freeFrames s.frames \ {f} ∧
    anyOf ((freeFrame p s₂).entry p) pagePresent = false ∧
    freeFrames (freeFrame p s₂).frames = freeFrames s.frames

/-- An entry with frame 0 looks like one without a frame. -/
theorem not_inverse (hl : s.frames.Layout) (hp : ¬ Mapped (s.entry p))
    (hzero : 0 ∈ freeFrames s.frames) : ¬ Inverse p kernel writable s := by
  rintro ⟨g, s₁, s₂, h₁, h₂, -, htaken, -, -⟩
  have hleast : IsLeast (freeFrames s.frames) 0 := ⟨hzero, fun f _ => Nat.zero_le f⟩
  have hp0 : pteToPfn (s.entry p) = 0 := by
    by_contra hne
    exact hp (.inl hne)
  obtain ⟨frames, hl₁, -, hfree₁, hnew⟩ := allocFrame_new hl hp0 hleast kernel writable
  obtain rfl := Option.some.inj (h₁.symm.trans hnew)
  have hentry : pteToPfn (VmState.entry ({ s with frames := frames }.setEntry p
      (frameEntry 0 kernel writable)) p) = 0 := by
    rw [entry_setEntry_self]
    exact pteToPfn_frameEntry (by decide) kernel writable
  rcases allocFrame_cases hl₁ h₂ with ⟨hne, -⟩ | ⟨-, i, frames₂, hi, -, -, hfree₂, rfl⟩
  · exact hne hentry
  · have hi' : i ∈ freeFrames s.frames \ {0} := hfree₁ ▸ hi.1
    have hall : (freeFrames s.frames \ {0}) \ {i} = freeFrames s.frames \ {g} := by
      rw [← hfree₁, ← htaken]
      exact hfree₂.symm
    have hg0 : 0 = g := by
      by_contra hne
      have : 0 ∈ (freeFrames s.frames \ {0}) \ {i} := hall ▸ ⟨hzero, hne⟩
      exact this.1.2 rfl
    have hgi : i = g := by
      by_contra hne
      have : i ∈ (freeFrames s.frames \ {0}) \ {i} := hall ▸ ⟨hi'.1, hne⟩
      exact this.2 rfl
    exact hi'.2 (hgi.trans hg0.symm)

theorem inverse_of_nonzero (hl : s.frames.Layout) (hsmall : s.frames.nframes ≤ 2 ^ 20)
    (hp : ¬ Mapped (s.entry p)) (hleast : IsLeast (freeFrames s.frames) f) (hf : f ≠ 0) :
    Inverse p kernel writable s := by
  have hp0 : pteToPfn (s.entry p) = 0 := by
    by_contra hne
    exact hp (.inl hne)
  have hlt : f < s.frames.nframes := hleast.1.1
  obtain ⟨frames, hl₁, hn₁, hfree₁, hnew⟩ := allocFrame_new hl hp0 hleast kernel writable
  obtain ⟨s₁, hs₁⟩ : ∃ s₁, s₁ = { s with frames := frames }.setEntry p
    (frameEntry f kernel writable) := ⟨_, rfl⟩
  have hframes : s₁.frames = frames := by rw [hs₁]; rfl
  have hentry : pteToPfn (s₁.entry p) = f := by
    rw [hs₁, entry_setEntry_self]
    exact pteToPfn_frameEntry (by omega) kernel writable
  have hagain : allocFrame p kernel writable s₁ = some s₁ := by
    rw [allocFrame, hentry, if_pos hf]
  have hgone : freeFrame p s₁ = { s₁ with frames := pfree f frameSize s₁.frames }.setEntry p
      (s₁.entry p &&& pageRw) := by
    rw [freeFrame, hentry, if_neg hf]
  refine ⟨f, s₁, s₁, by rw [hnew, hs₁], hagain, hleast.1, by rw [hframes, hfree₁], ?_, ?_⟩
  · rw [hgone, entry_setEntry_self, ← Bool.not_eq_true]
    exact fun hpresent => not_mapped_and_rw _ (.inr hpresent)
  · rw [hgone]
    show freeFrames (pfree f frameSize s₁.frames) = _
    rw [hframes, Pm.pfree_freeFrames hl₁ (hn₁ ▸ hlt), hfree₁, Set.insert_sdiff_singleton,
      Set.insert_eq_of_mem hleast.1]

/-- Wherever the allocator can get to, the two are inverse exactly while frame 0 is not
free. -/
theorem frames_inverse_iff {m : Pm.Machine} {u : Pm.PmState} (hm : m.nframes ≤ 2 ^ 20)
    (hr : Reach Pm.PmCall.Legal Pm.PmCall.step (Pm.boot m) u) (hs : s.frames = u.fs)
    (hfree : (freeFrames s.frames).Nonempty) (hp : ¬ Mapped (s.entry p)) :
    Inverse p kernel writable s ↔ 0 ∉ freeFrames s.frames := by
  have hb : u.Basic m.nframes := hr.invariant _ Pm.boot_basic fun _ _ _ h hc hstep => h.step hc hstep
  have hl : s.frames.Layout := hs ▸ hb.layout
  have hn : s.frames.nframes ≤ 2 ^ 20 := by
    rw [hs, hb.nframes]
    exact hm
  rcases Pm.pmalloc_freeFrames hl with ⟨f, hf, -, -⟩ | ⟨hnone, -, -⟩
  · refine ⟨fun h hzero => not_inverse hl hp hzero h, fun hzero => ?_⟩
    exact inverse_of_nonzero hl hn hp hf fun h0 => hzero (h0 ▸ hf.1)
  · rw [hnone] at hfree
    exact absurd hfree Set.not_nonempty_empty

/-- After frame 0 has been handed out. -/
theorem frames_inverse_second : ∃ s : VmState, 0 ∉ freeFrames s.frames ∧
    Inverse ⟨0x300000, 1⟩ true true s := by
  obtain ⟨u, hr, hbit⟩ := Reach.exists_of_exec Pm.PmCall.Legal Pm.PmCall.step (Pm.boot Pm.twoFrames)
    (fun u => u.fs.bit 0 0 = false ∧ 1 < u.fs.nframes ∧ u.fs.bit 0 1 = true)
    [.pmalloc frameSize] (by decide +kernel)
  obtain ⟨s, hs, hp⟩ : ∃ s : VmState, s.frames = u.fs ∧ ¬ Mapped (s.entry ⟨0x300000, 1⟩) :=
    ⟨{ twoFrames with frames := u.fs }, rfl, not_mapped_zero⟩
  have hzero : 0 ∉ freeFrames s.frames := by
    rw [hs]
    exact fun h => absurd h.2 (by rw [hbit.1]; decide)
  have hfree : (freeFrames s.frames).Nonempty := by
    rw [hs]
    exact ⟨1, hbit.2⟩
  exact ⟨s, hzero, (frames_inverse_iff (by decide) hr hs hfree hp).mpr hzero⟩

/-- As the allocator starts, the second call takes a second frame. -/
theorem frame_zero_forgotten : ¬ ∀ (m : Pm.Machine) (u : Pm.PmState) (s : VmState) (p : Slot)
    (kernel writable : Bool), m.nframes ≤ 2 ^ 20 →
    Reach Pm.PmCall.Legal Pm.PmCall.step (Pm.boot m) u → s.frames = u.fs →
    (freeFrames s.frames).Nonempty → ¬ Mapped (s.entry p) → Inverse p kernel writable s := by
  intro hall
  obtain ⟨s, hs, hp⟩ : ∃ s : VmState, s.frames = (Pm.boot Pm.twoFrames).fs ∧
      ¬ Mapped (s.entry ⟨0x300000, 1⟩) := ⟨twoFrames, rfl, not_mapped_zero⟩
  have hzero : 0 ∈ freeFrames s.frames := by
    rw [hs]
    exact Pm.boot_isSet.available_iff.mpr ⟨Nat.two_pos, List.not_mem_nil⟩
  exact not_inverse (hs ▸ Pm.boot_layout) hp hzero
    (hall Pm.twoFrames _ s ⟨0x300000, 1⟩ true true (by decide) .refl hs ⟨0, hzero⟩ hp)

end

end Shigure.Paging
