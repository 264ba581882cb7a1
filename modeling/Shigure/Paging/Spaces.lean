import Shigure.Paging.Booted

/-!
# Clones of address spaces

A clone shows what its source shows and keeps it apart, but not with the same
permissions: `clone_page_table` starts from a page for user mode, whatever the
page of the source is for, and `clone_page_directory` lets user mode through to
every table it copies.
-/

namespace Shigure.Paging

open Pm (FrameState frameSize freeFrames)

structure Permissions where
  present : Bool
  writable : Bool
  user : Bool
  deriving DecidableEq

/-- A flag is in force if the entries of the directory and of the table have it. -/
def permits (s : VmState) (pd vaddr : Nat) (flag : BitVec 32) : Bool :=
  let d := s.pageDirectories pd
  anyOf (d.entries (pdIndex vaddr)) flag &&
    anyOf (s.entry ⟨d.tables (pdIndex vaddr), ptIndex vaddr⟩) flag

def permissions (s : VmState) (pd vaddr : Nat) : Permissions :=
  ⟨permits s pd vaddr pagePresent, permits s pd vaddr pageRw, permits s pd vaddr pageUser⟩

section
variable {s s' s₁ s₂ s₃ s₄ : VmState} {src pd v f : Nat} {kernel writable : Bool}

-- ---------------------------------------------------------------------------
-- A page of its own
-- ---------------------------------------------------------------------------

section
variable (h : OwnPage kernel writable s₁ s₂ s₃ s₄)
include h

theorem OwnPage.world : World s₃ := by
  obtain ⟨k, f, -, -, hp⟩ := h.page
  exact hp.world h.boots.world

theorem OwnPage.current₃ : s₁.currentPd ∈ s₃.directories := by
  obtain ⟨k, f, -, -, hp⟩ := h.page
  rw [hp.directories]
  exact h.current

theorem OwnPage.not_shared : ¬ Shared s₃ s₁.currentPd 0x40000000 := by
  rintro ⟨h0, he⟩
  exact h0 (he.trans h.kernelTable)

theorem OwnPage.frame : ∃ f ≠ 0, frameAt s₃ s₁.currentPd 0x40000000 = some f := by
  obtain ⟨k, f, hpos, hlt, hp⟩ := h.page
  exact ⟨f, hpos.ne', hp.frameAt hlt⟩

end

-- ---------------------------------------------------------------------------
-- Copies
-- ---------------------------------------------------------------------------

/-- A clone shares the tables of the kernel, has its own copies of all other pages,
and the source stays as it is. -/
theorem clone_copies_and_isolates (hc : Source s src) (hs : Separate s src)
    (h : clonePageDirectory src s = some (pd, s')) (h0 : 0 ∉ s'.objects) :
    IsClone s s' src pd := by
  have hd := clonePageDirectory_spec hc h h0
  have h0' : 0 ∉ s'.made := fun hin => h0 (List.mem_append_left _ hin)
  have hfa : ∀ v, frameAt s' src v = frameAt s src v := fun v => hd.frameAt_source hc h0'
  have hat : ∀ v < wordSize, ClonedAt s s' src pd v := fun v hv => hd.clonedAt hc hs hv
  constructor
  case shared =>
    intro v hv hsh
    cases hat v hv with
    | shared _ _ hpage hframe => exact ⟨hpage, hframe⟩
    | empty hsrc => exact absurd hsh hsrc
    | copied hsrc => exact absurd hsh hsrc
  case copied =>
    intro v hv hsh f hne hf
    cases hat v hv with
    | shared hsrc => exact absurd hsrc hsh
    | empty _ _ hzero => exact absurd (hzero f hf) hne
    | copied _ _ f' g _ hold hframe hnew hused hbytes =>
      obtain rfl : f' = f := Option.some.inj (hold.symm.trans hf)
      exact ⟨g, hnew, hused, hframe, hbytes⟩
  case unmapped =>
    intro v hv hsh hzero
    cases hat v hv with
    | shared hsrc => exact absurd hsrc hsh
    | empty _ _ _ hframe => exact hframe
    | copied _ _ f g hne hold => exact absurd (hzero f hold) hne
  case directory => exact hd.source hc
  case entries =>
    intro v hv
    rw [findPage, findPage, hd.source hc]
    split
    · simp only [VmState.entry, Slot.null]
      rw [hd.tables 0 (.inr h0')]
    · exact hd.entry_source hc h0' _ _
  case contents =>
    intro v hv _ f hf k hk
    exact hd.phys f k (hc.frame_used hs hv hf) hk
  case hiddenFromClone =>
    intro v hv hsh
    rw [hd.shared_source hc] at hsh
    refine hidden_of_frames fun f hf w hw hf' => ?_
    rw [hfa] at hf
    cases hat w hw with
    | shared hsrc _ _ hframe =>
      exact hsh (shared_congr (hc.same_page hs hv hw hf (hframe ▸ hf')) hsrc)
    | empty _ _ _ hframe => cases hframe.symm.trans hf'
    | copied _ _ _ g _ _ hframe hnew =>
      obtain rfl : g = f := Option.some.inj (hframe.symm.trans hf')
      exact hc.frame_used hs hv hf hnew
  case hiddenFromSource =>
    intro v hv hsh
    refine hidden_of_frames fun f hf w hw hf' => ?_
    rw [hfa] at hf'
    cases hat v hv with
    | shared _ hclone => exact hsh hclone
    | empty _ _ _ hframe => cases hframe.symm.trans hf
    | copied _ _ _ g _ _ hframe hnew =>
      obtain rfl : g = f := Option.some.inj (hframe.symm.trans hf)
      exact hc.frame_used hs hw hf' hnew

/-- A clone of a page of its own. -/
theorem clone_copies_own_page : ∃ s s' src pd v f, clonePageDirectory src s = some (pd, s') ∧
    ¬ Shared s src v ∧ f ≠ 0 ∧ frameAt s src v = some f ∧ IsClone s s' src pd := by
  obtain ⟨s₁, s₂, s₃, s₄, h⟩ := own_page false true
  obtain ⟨f, hf, he⟩ := h.frame
  exact ⟨s₃, s₄, s₁.currentPd, 0xC0006000, 0x40000000, f, h.clone, h.not_shared, hf, he,
    clone_copies_and_isolates (h.world.source h.current₃) (h.world.separate h.current₃) h.clone
      h.nonzero⟩

-- ---------------------------------------------------------------------------
-- Permissions
-- ---------------------------------------------------------------------------

inductive SpaceCall
  | getPage (vaddr pd : Nat)
  | allocFrame (page : Slot) (kernel writable : Bool)
  | clonePageDirectory (src : Nat)

def SpaceCall.step (s : VmState) : SpaceCall → Option VmState
  | .getPage vaddr pd => (Paging.getPage vaddr pd true s).map Prod.snd
  | .allocFrame page kernel writable => Paging.allocFrame page kernel writable s
  | .clonePageDirectory src => (Paging.clonePageDirectory src s).map Prod.snd

/-- A call for a directory or an entry that was made, in which every allocation
succeeds. -/
def SpaceCall.Succeeds (s : VmState) (c : SpaceCall) : Prop :=
  (match c with
    | .getPage _ pd => pd ∈ s.directories
    | .allocFrame page _ _ => s.HasSlot page
    | .clonePageDirectory src => src ∈ s.directories) ∧
  ∀ s', c.step s = some s' → 0 ∉ s'.objects

theorem World.spaceStep {c : SpaceCall} (h : World s) (hc : c.Succeeds s) (hs : c.step s = some s') :
    World s' := by
  have h0 := hc.2 s' hs
  cases c with
  | getPage vaddr pd =>
    obtain ⟨⟨p, s₁⟩, hg, rfl⟩ := Option.map_eq_some_iff.mp hs
    exact h.getPage hg
  | allocFrame page kernel writable => exact h.allocFrame hs
  | clonePageDirectory src =>
    obtain ⟨⟨pd, s₁⟩, hd, rfl⟩ := Option.map_eq_some_iff.mp hs
    exact h.clone hc.1 hd h0

theorem Copied.permissions {e e' : BitVec 32} (h : Copied s s' e e') (h0 : pteToPfn e ≠ 0) :
    anyOf e' pagePresent = true ∧ anyOf e' pageRw = anyOf e pageRw ∧ anyOf e' pageUser = true := by
  rcases h with ⟨hz, -⟩ | ⟨-, g, -, -, rfl, -⟩
  · exact absurd hz h0
  · obtain ⟨hp, hw, hu⟩ := anyOf_cloneFlags e (frameEntry g false false)
    rw [hp, hw, hu, frameEntry_present, (frameEntry_user g).1, (frameEntry_user g).2]
    exact ⟨rfl, Bool.false_or _, rfl⟩

/-- A copied page is for user mode, and is otherwise what the page of the source is. -/
theorem World.clone_permissions (h : World s) (hsrc : src ∈ s.directories)
    (hd : ClonedDirectory s s' src pd) (hv : v < wordSize) (hf : frameAt s src v = some f)
    (hne : f ≠ 0) :
    permissions s' pd v = permissions s src v ∧ Shared s src v ∨
    permissions s' pd v = { permissions s src v with user := true } ∧ ¬ Shared s src v := by
  have hi := pdIndex_lt hv
  obtain ⟨hp, hp', hfe⟩ := frameAt_eq_some.mp hf
  have h0 := (h.pdes src hsrc _ hi).present.mp hp
  cases hd.pdes _ hi with
  | absent hz => exact absurd hz h0
  | linked _ hkernel htable hpde =>
    have he : s'.entry ⟨(s.pageDirectories src).tables (pdIndex v), ptIndex v⟩ =
        s.entry ⟨(s.pageDirectories src).tables (pdIndex v), ptIndex v⟩ := hd.entry (h.table h0)
    refine .inl ⟨?_, h0, hkernel⟩
    simp only [permissions, permits, htable, hpde, he]
  | copied _ hkernel _ hpde hentries =>
    obtain ⟨hwp, hww, hwu⟩ := (hentries _ ptIndex_lt).permissions (hfe ▸ hne)
    have hrw : anyOf ((s.pageDirectories src).entries (pdIndex v)) pageRw = true := by
      rcases h.pdes src hsrc _ hi with ⟨hz, -⟩ | ⟨-, -, hrw⟩
      · exact absurd hz h0
      · exact hrw
    refine .inr ⟨?_, fun hsh => hkernel hsh.2⟩
    simp only [permissions, permits, hpde, copiedPde_flags, hwp, hww, hwu, hp, hp', hrw, Bool.true_and]

/-- A clone keeps the permissions of an address exactly if the address is under a table
of the kernel or open to user mode. -/
theorem permissions_kept_iff {n initrdEnd : Nat} {s₀ : VmState} (hb : Boots n initrdEnd s₀ s₁)
    (hr : Reach SpaceCall.Succeeds SpaceCall.step s₁ s) (hsrc : src ∈ s.directories)
    (hc : clonePageDirectory src s = some (pd, s')) (h0 : 0 ∉ s'.objects) (hv : v < wordSize)
    (hf : frameAt s src v = some f) (hne : f ≠ 0) :
    permissions s' pd v = permissions s src v ↔
      Shared s src v ∨ permits s src v pageUser = true := by
  have h : World s := hr.invariant World hb.world fun _ _ _ h hc hs => h.spaceStep hc hs
  have hd := clonePageDirectory_spec (h.source hsrc) hc h0
  rcases h.clone_permissions hsrc hd hv hf hne with ⟨hsame, hsh⟩ | ⟨huser, hsh⟩
  · exact ⟨fun _ => .inl hsh, fun _ => hsame⟩
  · rw [huser]
    constructor
    · intro he
      exact .inr (congrArg Permissions.user he).symm
    · rintro (hsh' | hu)
      · exact absurd hsh' hsh
      · rw [permissions, hu]

section
variable (h : OwnPage kernel writable s₁ s₂ s₃ s₄)
include h

theorem OwnPage.reach : Reach SpaceCall.Succeeds SpaceCall.step s₁ s₃ := by
  obtain ⟨k, f, -, -, hp⟩ := h.page
  have hget : SpaceCall.step s₁ (.getPage 0x40000000 s₁.currentPd) = some s₂ := by
    rw [SpaceCall.step, hp.getPage]
    rfl
  have halloc : SpaceCall.step s₂ (.allocFrame ⟨0xC0004000, 0⟩ kernel writable) = some s₃ :=
    hp.allocFrame
  have hslot : s₂.HasSlot ⟨0xC0004000, 0⟩ := by
    refine ⟨?_, by decide⟩
    rw [hp.made₂]
    exact List.mem_cons_self
  refine .tail (.tail .refl ⟨h.current, fun s' hs => ?_⟩ hget) ⟨hslot, fun s' hs => ?_⟩ halloc
  · exact Option.some.inj (hget.symm.trans hs) ▸ hp.nonzero₂ (by decide) h.boots.nonzero
  · exact Option.some.inj (halloc.symm.trans hs) ▸ hp.nonzero (by decide) h.boots.nonzero

/-- `get_page` closes the table to user mode. -/
theorem OwnPage.not_user : permits s₃ s₁.currentPd 0x40000000 pageUser = false := by
  have hflags : anyOf pagePresent pageUser = false ∧ anyOf pageRw pageUser = false := by decide
  obtain ⟨k, f, -, -, hp⟩ := h.page
  rw [permits, hp.pde, kernelPhys_page (by decide)]
  simp only [anyOf_or, anyOf_shiftLeft _ low_user, hflags, Bool.or_false, Bool.false_and]

end

theorem permissions_kept_own_page : ∃ s₁ s s' src pd v f, Boots 0x8000 0x1F0000 unbooted s₁ ∧
    Reach SpaceCall.Succeeds SpaceCall.step s₁ s ∧ clonePageDirectory src s = some (pd, s') ∧
    frameAt s src v = some f ∧ f ≠ 0 ∧ (permissions s' pd v = permissions s src v ↔
      Shared s src v ∨ permits s src v pageUser = true) := by
  obtain ⟨s₁, s₂, s₃, s₄, h⟩ := own_page false true
  obtain ⟨f, hf, he⟩ := h.frame
  exact ⟨s₁, s₃, s₄, s₁.currentPd, 0xC0006000, 0x40000000, f, h.boots, h.reach, h.clone, he, hf,
    permissions_kept_iff h.boots h.reach h.current₃ h.clone h.nonzero (by decide) he hf⟩

/-- User mode can reach the copy of a page that it cannot reach itself. -/
theorem clone_opens_own_page : ¬ ∀ (n initrdEnd : Nat) (s₀ s₁ s s' : VmState) (src pd v f : Nat),
    Boots n initrdEnd s₀ s₁ → Reach SpaceCall.Succeeds SpaceCall.step s₁ s → src ∈ s.directories →
    clonePageDirectory src s = some (pd, s') → 0 ∉ s'.objects → v < wordSize →
    frameAt s src v = some f → f ≠ 0 → permissions s' pd v = permissions s src v := by
  intro hall
  obtain ⟨s₁, s₂, s₃, s₄, h⟩ := own_page false true
  obtain ⟨f, hf, he⟩ := h.frame
  have hsame := hall 0x8000 0x1F0000 unbooted s₁ s₃ s₄ s₁.currentPd 0xC0006000 0x40000000 f h.boots
    h.reach h.current₃ h.clone h.nonzero (by decide) he hf
  have hd := clonePageDirectory_spec (h.world.source h.current₃) h.clone h.nonzero
  rcases h.world.clone_permissions h.current₃ hd (by decide) he hf with ⟨-, hsh⟩ | ⟨huser, -⟩
  · exact h.not_shared hsh
  · have hopen : true = permits s₃ s₁.currentPd 0x40000000 pageUser :=
      congrArg Permissions.user (huser.symm.trans hsame)
    rw [h.not_user] at hopen
    cases hopen

end

end Shigure.Paging
