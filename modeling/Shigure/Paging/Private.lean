import Shigure.Paging.Spaces

/-!
# Private pages

A page that is not under a table of the kernel belongs to one directory. Whatever
the paging code does for other pages and other directories, and whatever is stored
while another directory is in use, the page stays where it is and holds what was
stored through its own directory: it is a memory by itself.
-/

namespace Shigure.Paging

open Pm (FrameState frameSize freeFrames)

/-- `cr3` gets `pd->paddr_pde`. -/
def switchPageDirectory (pd : Nat) (s : VmState) : VmState := { s with currentPd := pd }

inductive MemoryCall
  | getPage (vaddr pd : Nat)
  | allocFrame (page : Slot) (kernel writable : Bool)
  | freeFrame (page : Slot)
  | clonePageDirectory (src : Nat)
  | kmalloc (size : Nat)
  | switchPageDirectory (pd : Nat)
  | store (vaddr : Nat) (value : BitVec 8)

def MemoryCall.step (s : VmState) : MemoryCall → Option VmState
  | .getPage vaddr pd => (Paging.getPage vaddr pd true s).map Prod.snd
  | .allocFrame page kernel writable => Paging.allocFrame page kernel writable s
  | .freeFrame page => some (Paging.freeFrame page s)
  | .clonePageDirectory src => (Paging.clonePageDirectory src s).map Prod.snd
  | .kmalloc size => (ikmalloc size false s).map fun r => r.2.2
  | .switchPageDirectory pd => some (Paging.switchPageDirectory pd s)
  | .store vaddr value => some (storeByte s s.currentPd vaddr value)

/-- A call for a directory or an entry that was made, in which every allocation
succeeds. The pages of the kernel keep their frames, and its memory is not written
to: page tables are in it. -/
def MemoryCall.Succeeds (s : VmState) (c : MemoryCall) : Prop :=
  (match c with
    | .getPage _ pd => pd ∈ s.directories
    | .allocFrame page _ _ => s.HasSlot page
    | .freeFrame page => s.HasSlot page ∧ ∀ i, (s.pageDirectories s.kernelPd).tables i ≠ page.table
    | .clonePageDirectory src => src ∈ s.directories
    | .kmalloc size => Vm.KHeap.NoWrap false size
    | .switchPageDirectory pd => pd ∈ s.directories
    | .store vaddr _ => vaddr < wordSize ∧ ¬ Shared s s.currentPd vaddr) ∧
  ∀ s', c.step s = some s' → 0 ∉ s'.objects

/-- Directories have no table in common, except for those of the kernel, and the boot has
taken frame 0, whose number stands for no frame. -/
structure Spaces (s : VmState) : Prop extends World s where
  zero : 0 ∉ freeFrames s.frames
  current : s.currentPd ∈ s.directories
  common : ∀ pd ∈ s.directories, ∀ pd' ∈ s.directories, pd ≠ pd' → ∀ i < pdEntries,
    (s.pageDirectories pd).tables i ≠ 0 →
    (s.pageDirectories pd).tables i = (s.pageDirectories pd').tables i →
    (s.pageDirectories pd).tables i = (s.pageDirectories s.kernelPd).tables i

structure Private (s : VmState) (pd v f : Nat) : Prop where
  directory : pd ∈ s.directories
  address : v < wordSize
  own : ¬ Shared s pd v
  nonzero : f ≠ 0
  frame : frameAt s pd v = some f

-- ---------------------------------------------------------------------------
-- A page by itself
-- ---------------------------------------------------------------------------

structure PageMemory where
  current : Nat
  bytes : Nat → BitVec 8

/-- All that the calls mean for one page of `pd`: a directory is used, and a byte is
written if it is that of `pd`. -/
def PageMemory.step (pd page : Nat) (m : PageMemory) : MemoryCall → PageMemory
  | .switchPageDirectory pd' => { m with current := pd' }
  | .store vaddr value =>
    if m.current = pd ∧ vaddr / frameSize = page then
      { m with bytes := fun k => if k = vaddr % frameSize then value else m.bytes k }
    else m
  | _ => m

section
variable {s s' s₁ : VmState} {p : Slot} {src pd pd' v w f : Nat} {c : MemoryCall}

-- ---------------------------------------------------------------------------
-- One owner
-- ---------------------------------------------------------------------------

theorem World.mapped (h : World s) (hpd : pd ∈ s.directories) (hv : v < wordSize)
    (hf : frameAt s pd v = some f) :
    (s.pageDirectories pd).tables (pdIndex v) ≠ 0 ∧
      Mapped (s.entry ⟨(s.pageDirectories pd).tables (pdIndex v), ptIndex v⟩) ∧
      pteToPfn (s.entry ⟨(s.pageDirectories pd).tables (pdIndex v), ptIndex v⟩) = f := by
  obtain ⟨hp, hm, he⟩ := frameAt_eq_some.mp hf
  exact ⟨(h.pdes pd hpd _ (pdIndex_lt hv)).present.mp hp, .inr hm, he⟩

/-- No other address of any directory is in the frame. -/
theorem Spaces.alone (h : Spaces s) (hp : Private s pd v f) (hpd' : pd' ∈ s.directories)
    (hw : w < wordSize) (hf : frameAt s pd' w = some f) : pd' = pd ∧ w / frameSize = v / frameSize := by
  obtain ⟨h0, hm, he⟩ := h.mapped hp.directory hp.address hp.frame
  obtain ⟨h0', hm', he'⟩ := h.mapped hpd' hw hf
  have hslot := h.owned.apart _ _ (h.table h0) (h.table h0') hm hm' (he.trans he'.symm)
  simp only [Slot.mk.injEq] at hslot
  have hi := h.index pd hp.directory pd' hpd' _ (pdIndex_lt hp.address) _ (pdIndex_lt hw) h0 hslot.1
  refine ⟨?_, by rw [page_eq, page_eq, hi, hslot.2]⟩
  by_contra hne
  exact hp.own ⟨h0, h.common pd hp.directory pd' hpd' (Ne.symm hne) _ (pdIndex_lt hp.address) h0
    (hslot.1.trans (by rw [hi]))⟩

theorem Private.table (h : World s) (hp : Private s pd v f) :
    (s.pageDirectories pd).tables (pdIndex v) ∈ s.made :=
  h.table (h.mapped hp.directory hp.address hp.frame).1

theorem Private.findPage (h : World s) (hp : Private s pd v f) :
    findPage v pd s = ⟨(s.pageDirectories pd).tables (pdIndex v), ptIndex v⟩ :=
  findPage_of_table (h.mapped hp.directory hp.address hp.frame).1

theorem Private.used (h : World s) (hp : Private s pd v f) : f ∉ freeFrames s.frames := by
  obtain ⟨h0, hm, rfl⟩ := h.mapped hp.directory hp.address hp.frame
  exact (h.owned.used _ (h.table h0) hm).2

/-- The entries that translate the address stay, and its table does not become one of
the kernel. -/
theorem Private.congr (hp : Private s pd v f) (hd : pd ∈ s'.directories)
    (ht : (s'.pageDirectories pd).tables (pdIndex v) = (s.pageDirectories pd).tables (pdIndex v))
    (he : (s'.pageDirectories pd).entries (pdIndex v) = (s.pageDirectories pd).entries (pdIndex v))
    (hs : s'.entry ⟨(s.pageDirectories pd).tables (pdIndex v), ptIndex v⟩ =
      s.entry ⟨(s.pageDirectories pd).tables (pdIndex v), ptIndex v⟩)
    (hk : (s'.pageDirectories s'.kernelPd).tables (pdIndex v) =
        (s.pageDirectories s.kernelPd).tables (pdIndex v) ∨
      (s'.pageDirectories s'.kernelPd).tables (pdIndex v) ≠
        (s.pageDirectories pd).tables (pdIndex v)) : Private s' pd v f := by
  refine ⟨hd, hp.address, ?_, hp.nonzero, ?_⟩
  · rw [Shared, ht]
    rintro ⟨h0, heq⟩
    rcases hk with hk | hk
    · exact hp.own ⟨h0, heq.trans hk⟩
    · exact hk heq.symm
  · rw [← hp.frame]
    simp only [frameAt, ht, he, hs]

theorem frameAt_page (h : w / frameSize = v / frameSize) : frameAt s pd w = frameAt s pd v := by
  have hi : pdIndex w = pdIndex v := by
    simp only [pdIndex, Nat.shiftRight_eq_div_pow, frameSize] at *
    omega
  rw [frameAt, frameAt, ptIndex_eq, ptIndex_eq, h, hi]

theorem loadByte_eq (h : frameAt s pd v = some f) :
    loadByte s pd v = some (s.phys (f * frameSize + v % frameSize)) := by
  simp only [loadByte, physAddr, h, Option.map_some]

-- ---------------------------------------------------------------------------
-- The calls keep the directories apart
-- ---------------------------------------------------------------------------

theorem freeFrame_cases : (pteToPfn (s.entry p) = 0 ∧ freeFrame p s = s) ∨
    (pteToPfn (s.entry p) ≠ 0 ∧ freeFrame p s =
      { s with frames := Pm.pfree (pteToPfn (s.entry p)) frameSize s.frames }.setEntry p
        (s.entry p &&& pageRw)) := by
  by_cases h0 : pteToPfn (s.entry p) = 0
  · exact .inl ⟨h0, by rw [freeFrame, if_pos h0]⟩
  · exact .inr ⟨h0, by rw [freeFrame, if_neg h0]⟩

theorem storeByte_phys (s : VmState) (pd v : Nat) (value : BitVec 8) :
    ∃ m, storeByte s pd v value = { s with phys := m } := by
  rw [storeByte]
  cases physAddr s pd v with
  | none => exact ⟨s.phys, rfl⟩
  | some a => exact ⟨_, rfl⟩

theorem World.phys (h : World s) (m : Mem) : World { s with phys := m } :=
  h.congr (h.sound.congr rfl rfl (List.Perm.refl _))
    (h.owned.congr rfl rfl rfl h.owned.pointers) rfl rfl rfl rfl

theorem World.kmalloc (h : World s) {size a : Nat} {pa : BitVec 32}
    (hw : Vm.KHeap.NoWrap false size) (hi : ikmalloc size false s = some (a, pa, s')) : World s' := by
  obtain ⟨⟨_, _, rfl⟩, hs, -, -⟩ := h.sound.ikmalloc_block hw hi
  exact h.congr hs (h.owned.ikmalloc hi).1 rfl rfl rfl rfl

theorem Spaces.congr (h : Spaces s) (hw : World s') (hz : 0 ∉ freeFrames s'.frames) (hd : s'.pageDirectories = s.pageDirectories)
    (hds : s'.directories = s.directories) (hk : s'.kernelPd = s.kernelPd)
    (hc : s'.currentPd ∈ s.directories) : Spaces s' := by
  refine ⟨hw, hz, hds ▸ hc, ?_⟩
  rw [hd, hds, hk]
  exact h.common

theorem Spaces.addTable {i t : Nat} {pde : BitVec 32} (h : Spaces s) (hw : World s')
    (ha : TableAdded s s' pd i t pde) (hf : s'.frames = s.frames) (hc : s'.currentPd = s.currentPd) :
    Spaces s' := by
  have hfresh : ∀ d k, (s.pageDirectories d).tables k ≠ t := by
    intro d k he
    exact ha.fresh (he ▸ h.table (he ▸ ha.ne_zero))
  refine ⟨hw, hf ▸ h.zero, by rw [hc, ha.directories]; exact h.current, ?_⟩
  rw [ha.directories, ha.kernelPd]
  intro d hd d' hd' hne k hk
  rw [ha.table, ha.table, ha.table]
  by_cases hnew : d = pd ∧ k = i
  · -- the other directory has an old table there
    rw [if_pos hnew, if_neg fun h' => hne (hnew.1.trans h'.1.symm)]
    intro _ he
    exact absurd he.symm (hfresh d' k)
  · rw [if_neg hnew]
    by_cases hnew' : d' = pd ∧ k = i
    · rw [if_pos hnew']
      exact fun _ he => absurd he (hfresh d k)
    · rw [if_neg hnew']
      intro h0 he
      have hk' := h.common d hd d' hd' hne k hk h0 he
      split
      · rename_i hkernel
        rw [hk', hkernel.1, hkernel.2, ha.absent] at h0
        exact absurd rfl h0
      · exact hk'

theorem Spaces.clone (h : Spaces s) (hsrc : src ∈ s.directories)
    (hc : clonePageDirectory src s = some (pd, s')) (h0 : 0 ∉ s'.objects)
    (hcur : s'.currentPd ∈ s'.directories) : Spaces s' := by
  have hd := clonePageDirectory_spec (h.source hsrc) hc h0
  refine ⟨h.toWorld.clone hsrc hc h0, fun hz => h.zero (hd.free hz), hcur, ?_⟩
  -- a table of the clone that another directory has is linked
  have hlinked : ∀ d ∈ s.directories, ∀ i < pdEntries, (s'.pageDirectories pd).tables i ≠ 0 →
      (s'.pageDirectories pd).tables i = (s.pageDirectories d).tables i →
      (s'.pageDirectories pd).tables i = (s.pageDirectories s.kernelPd).tables i := by
    intro d hin i hi hne he
    cases hd.pdes i hi with
    | absent _ htable => exact absurd htable hne
    | linked _ hkernel htable => exact htable.trans hkernel
    | copied _ _ hnew => exact absurd (he ▸ h.table (he ▸ hne)) hnew.fresh
  rw [hd.directories, hd.kernelPd, hd.old h.kernelDirectory]
  intro d hin d' hin' hne i hi
  rcases List.mem_cons.mp hin with rfl | hold
  · have hold' := (List.mem_cons.mp hin').resolve_left (Ne.symm hne)
    rw [hd.old hold']
    exact hlinked d' hold' i hi
  · rw [hd.old hold]
    rcases List.mem_cons.mp hin' with rfl | hold'
    · intro h0 he
      exact he.trans (hlinked d hold i hi (he ▸ h0) he.symm)
    · rw [hd.old hold']
      exact h.common d hold d' hold' hne i hi

theorem clonePde_current {dst i : Nat} (h : clonePde src dst i s = some s') :
    s'.currentPd = s.currentPd := by
  rw [clonePde] at h
  split at h
  · obtain rfl := Option.some.inj h
    rfl
  · split at h
    · obtain rfl := Option.some.inj h
      rfl
    · obtain ⟨⟨t, pa, s₁⟩, ht, h⟩ := Option.bind_eq_some_iff.mp h
      obtain rfl := Option.some.inj h
      obtain ⟨s₂, hi, he⟩ := clonePageTable_some ht
      obtain ⟨_, _, _, _, rfl⟩ := ikmalloc_same hi
      obtain ⟨_, _, _, rfl⟩ := cloneEntries_same he
      rfl

theorem clonePdes_current {dst : Nat} {is : List Nat} (h : clonePdes src dst is s = some s') :
    s'.currentPd = s.currentPd := by
  induction is generalizing s with
  | nil =>
    obtain rfl := Option.some.inj h
    rfl
  | cons i is ih =>
    obtain ⟨s₁, h1, h⟩ := Option.bind_eq_some_iff.mp h
    exact (ih h).trans (clonePde_current h1)

theorem clonePageDirectory_current (h : clonePageDirectory src s = some (pd, s')) :
    s'.currentPd = s.currentPd := by
  obtain ⟨pa, s₁, hi, he⟩ := clonePageDirectory_some h
  obtain ⟨_, _, _, _, rfl⟩ := ikmalloc_same hi
  generalize List.range pdEntries = is at he
  exact (clonePdes_current he).trans rfl

theorem getPage_current {vaddr : Nat} (h : getPage vaddr pd true s = some (p, s')) :
    s'.currentPd = s.currentPd ∧ s'.frames = s.frames := by
  rcases getPage_cases h with ⟨-, -, rfl⟩ | ⟨-, t, pa, s₁, hi, ⟨-, -, rfl⟩ | ⟨-, -, rfl⟩⟩
  · exact ⟨rfl, rfl⟩
  · obtain ⟨_, _, _, _, rfl⟩ := ikmalloc_same hi
    exact ⟨rfl, rfl⟩
  · obtain ⟨_, _, _, _, rfl⟩ := ikmalloc_same hi
    exact ⟨rfl, rfl⟩

/-- `free_frame` cannot give frame 0 back. -/
theorem freeFrame_zero (hl : s.frames.Layout) (hz : 0 ∉ freeFrames s.frames)
    (hlt : pteToPfn (s.entry p) ≠ 0 → pteToPfn (s.entry p) < s.frames.nframes) :
    0 ∉ freeFrames (freeFrame p s).frames := by
  rcases freeFrame_cases (s := s) (p := p) with ⟨-, he⟩ | ⟨h0, he⟩
  · rw [he]
    exact hz
  · rw [he]
    show 0 ∉ freeFrames (Pm.pfree (pteToPfn (s.entry p)) frameSize s.frames)
    rw [Pm.pfree_freeFrames hl (hlt h0)]
    rintro (h | h)
    · exact h0 h.symm
    · exact hz h

theorem Spaces.getPage {vaddr : Nat} (h : Spaces s) (hg : getPage vaddr pd true s = some (p, s')) :
    Spaces s' := by
  have hw := h.toWorld.getPage hg
  obtain ⟨hcur, hframes⟩ := getPage_current hg
  obtain ⟨-, ⟨_, _, rfl⟩ | ⟨t, -, ha⟩⟩ := h.sound.getPage hg
  · exact h.congr hw h.zero rfl rfl rfl h.current
  · exact h.addTable hw ha hframes hcur

theorem Spaces.allocFrame {kernel writable : Bool} (h : Spaces s)
    (ha : allocFrame p kernel writable s = some s') : Spaces s' := by
  have hw := h.toWorld.allocFrame ha
  rcases allocFrame_cases h.owned.layout ha with ⟨-, rfl⟩ | ⟨-, g, frames, -, -, -, hfree, rfl⟩
  · exact h
  · exact h.congr hw (fun hz => h.zero (hfree ▸ hz : 0 ∈ freeFrames s.frames \ {g}).1) rfl rfl rfl
      h.current

theorem Spaces.freeFrame (h : Spaces s) (hp : p.table ∈ s.made) : Spaces (freeFrame p s) := by
  have hw := h.toWorld.freeFrame hp
  have hz := freeFrame_zero h.owned.layout h.zero fun h0 => (h.owned.used p hp (.inl h0)).1
  rcases freeFrame_cases (s := s) (p := p) with ⟨-, he⟩ | ⟨-, he⟩
  · rw [he]
    exact h
  · rw [he] at hw hz ⊢
    exact h.congr hw hz rfl rfl rfl h.current

theorem Spaces.kmalloc {size a : Nat} {pa : BitVec 32} (h : Spaces s)
    (hw : Vm.KHeap.NoWrap false size) (hi : ikmalloc size false s = some (a, pa, s')) : Spaces s' := by
  have hw := h.toWorld.kmalloc hw hi
  obtain ⟨_, _, _, _, rfl⟩ := ikmalloc_same hi
  exact h.congr hw h.zero rfl rfl rfl h.current

theorem Spaces.phys (h : Spaces s) (m : Mem) : Spaces { s with phys := m } :=
  h.congr (h.toWorld.phys m) h.zero rfl rfl rfl h.current

theorem Spaces.switch (h : Spaces s) (hpd : pd ∈ s.directories) : Spaces (switchPageDirectory pd s) :=
  h.congr (h.toWorld.switch pd) h.zero rfl rfl rfl hpd

theorem Spaces.step (h : Spaces s) (hc : c.Succeeds s) (hs : c.step s = some s') : Spaces s' := by
  have h0 := hc.2 s' hs
  cases c with
  | getPage vaddr pd =>
    obtain ⟨⟨p, s₁⟩, hg, rfl⟩ := Option.map_eq_some_iff.mp hs
    exact h.getPage hg
  | allocFrame page kernel writable => exact h.allocFrame hs
  | freeFrame page =>
    obtain rfl := Option.some.inj hs
    exact h.freeFrame hc.1.1.1
  | clonePageDirectory src =>
    obtain ⟨⟨pd, s₁⟩, hd, rfl⟩ := Option.map_eq_some_iff.mp hs
    refine h.clone hc.1 hd h0 ?_
    rw [clonePageDirectory_current hd, (clonePageDirectory_spec (h.source hc.1) hd h0).directories]
    exact List.mem_cons_of_mem _ h.current
  | kmalloc size =>
    obtain ⟨⟨a, pa, s₁⟩, hi, rfl⟩ := Option.map_eq_some_iff.mp hs
    exact h.kmalloc hc.1 hi
  | switchPageDirectory pd =>
    obtain rfl := Option.some.inj hs
    exact h.switch hc.1
  | store vaddr value =>
    obtain rfl := Option.some.inj hs
    obtain ⟨m, he⟩ := storeByte_phys s s.currentPd vaddr value
    rw [he]
    exact h.phys m

theorem Private.getPage {vaddr : Nat} (h : Spaces s) (hp : Private s pd v f)
    (hg : getPage vaddr pd' true s = some (p, s')) : Private s' pd v f := by
  have htable := hp.table h.toWorld
  obtain ⟨hne, -, -⟩ := h.mapped hp.directory hp.address hp.frame
  obtain ⟨-, ⟨_, _, rfl⟩ | ⟨t, -, ha⟩⟩ := h.sound.getPage hg
  · exact hp.congr hp.directory rfl rfl rfl (.inl rfl)
  · have hold : ¬ (pd = pd' ∧ pdIndex v = pdIndex vaddr) := by
      rintro ⟨rfl, he⟩
      exact hne (he ▸ ha.absent)
    have hfresh : (s.pageDirectories pd).tables (pdIndex v) ≠ t := fun he => ha.fresh (he ▸ htable)
    refine hp.congr (ha.directories ▸ hp.directory) (by rw [ha.table, if_neg hold])
      (by rw [ha.entry, if_neg hold]) (by rw [ha.pte, if_neg hfresh]) ?_
    rw [ha.kernelPd, ha.table]
    split
    · exact .inr (Ne.symm hfresh)
    · exact .inl rfl

theorem Private.allocFrame {kernel writable : Bool} (h : Spaces s) (hp : Private s pd v f)
    (ha : allocFrame p kernel writable s = some s') : Private s' pd v f := by
  obtain ⟨-, -, hframe⟩ := h.mapped hp.directory hp.address hp.frame
  rcases allocFrame_cases h.owned.layout ha with ⟨-, rfl⟩ | ⟨hz, g, frames, -, -, -, -, rfl⟩
  · exact hp
  · refine hp.congr hp.directory rfl rfl (entry_setEntry_ne ?_) (.inl rfl)
    rintro rfl
    exact hp.nonzero (hframe.symm.trans hz)

theorem Private.phys (hp : Private s pd v f) (m : Mem) : Private { s with phys := m } pd v f :=
  hp.congr hp.directory rfl rfl rfl (.inl rfl)

/-- A call that does not give the page back keeps it private. -/
theorem Private.step (h : Spaces s) (hp : Private s pd v f) (hc : c.Succeeds s)
    (hfree : c ≠ .freeFrame (Paging.findPage v pd s)) (hs : c.step s = some s') :
    Private s' pd v f := by
  have h0 := hc.2 s' hs
  cases c with
  | getPage vaddr pd' =>
    obtain ⟨⟨p, s₁⟩, hg, rfl⟩ := Option.map_eq_some_iff.mp hs
    exact hp.getPage h hg
  | allocFrame page kernel writable => exact hp.allocFrame h hs
  | freeFrame page =>
    obtain rfl := Option.some.inj hs
    rcases freeFrame_cases (s := s) (p := page) with ⟨-, he⟩ | ⟨-, he⟩
    · rw [he]
      exact hp
    · rw [he]
      refine hp.congr hp.directory rfl rfl (entry_setEntry_ne ?_) (.inl rfl)
      rintro rfl
      exact hfree (congrArg _ (hp.findPage h.toWorld).symm)
  | clonePageDirectory src =>
    obtain ⟨⟨pd', s₁⟩, hd, rfl⟩ := Option.map_eq_some_iff.mp hs
    have hd := clonePageDirectory_spec (h.source hc.1) hd h0
    refine hp.congr (by rw [hd.directories]; exact List.mem_cons_of_mem _ hp.directory)
      (by rw [hd.old hp.directory]) (by rw [hd.old hp.directory]) (hd.entry (hp.table h.toWorld)) (.inl ?_)
    exact hd.kernelTable (h.source hc.1) _
  | kmalloc size =>
    obtain ⟨⟨a, pa, s₁⟩, hi, rfl⟩ := Option.map_eq_some_iff.mp hs
    obtain ⟨_, _, _, _, rfl⟩ := ikmalloc_same hi
    exact hp.congr hp.directory rfl rfl rfl (.inl rfl)
  | switchPageDirectory pd' =>
    obtain rfl := Option.some.inj hs
    exact hp.congr hp.directory rfl rfl rfl (.inl rfl)
  | store vaddr value =>
    obtain rfl := Option.some.inj hs
    obtain ⟨m, he⟩ := storeByte_phys s s.currentPd vaddr value
    rw [he]
    exact hp.phys m

structure Holds (s : VmState) (f : Nat) (m : PageMemory) : Prop where
  current : m.current = s.currentPd
  bytes : ∀ k < frameSize, s.phys (f * frameSize + k) = m.bytes k

theorem frame_byte_inj {f g k j : Nat} (hk : k < frameSize) (hj : j < frameSize)
    (h : f * frameSize + k = g * frameSize + j) : f = g ∧ k = j := by
  simp only [frameSize] at *
  omega

theorem Holds.store (h : Spaces s) (hp : Private s pd v f) {m : PageMemory} (hm : Holds s f m)
    (hw : w < wordSize) (value : BitVec 8) :
    Holds (storeByte s s.currentPd w value) f (m.step pd (v / frameSize) (.store w value)) := by
  have hmod : w % frameSize < frameSize := Nat.mod_lt _ (by decide)
  have hsame : m.current = pd ∧ w / frameSize = v / frameSize →
      frameAt s s.currentPd w = some f := by
    rintro ⟨hc, hpage⟩
    rw [← hm.current, hc, frameAt_page hpage, hp.frame]
  rw [storeByte, physAddr, PageMemory.step]
  cases hg : frameAt s s.currentPd w with
  | none =>
    rw [if_neg fun hin => by rw [hsame hin] at hg; cases hg]
    exact hm
  | some g =>
    rw [Option.map_some]
    by_cases hin : m.current = pd ∧ w / frameSize = v / frameSize
    · rw [if_pos hin]
      obtain rfl : f = g := Option.some.inj ((hsame hin).symm.trans hg)
      refine ⟨hm.current, fun k hk => ?_⟩
      show (s.phys.set (f * frameSize + w % frameSize) value) (f * frameSize + k) =
        if k = w % frameSize then value else m.bytes k
      rw [Mem.set]
      by_cases he : k = w % frameSize
      · rw [if_pos (by rw [he]), if_pos he]
      · rw [if_neg (by omega), if_neg he, hm.bytes k hk]
    · rw [if_neg hin]
      refine ⟨hm.current, fun k hk => ?_⟩
      show (s.phys.set (g * frameSize + w % frameSize) value) (f * frameSize + k) = m.bytes k
      rw [Mem.set, if_neg fun he => ?_, hm.bytes k hk]
      obtain ⟨rfl, -⟩ := frame_byte_inj hk hmod he
      obtain ⟨hc, hpage⟩ := h.alone hp h.current hw hg
      exact hin ⟨hm.current.trans hc, hpage⟩

/-- One call does to the page what it does to the memory. -/
theorem Holds.step (h : Spaces s) (hp : Private s pd v f) {m : PageMemory} (hm : Holds s f m)
    (hc : c.Succeeds s) (hs : c.step s = some s') : Holds s' f (m.step pd (v / frameSize) c) := by
  have h0 := hc.2 s' hs
  have hsame : ∀ {s'}, s'.currentPd = s.currentPd → s'.phys = s.phys → Holds s' f m :=
    fun hcur hphys => ⟨hm.current.trans hcur.symm, by rw [hphys]; exact hm.bytes⟩
  cases c with
  | getPage vaddr pd' =>
    obtain ⟨⟨p, s₁⟩, hg, rfl⟩ := Option.map_eq_some_iff.mp hs
    exact hsame (getPage_current hg).1 (getPage_phys hg)
  | allocFrame page kernel writable =>
    obtain ⟨_, _, rfl⟩ := allocFrame_same hs
    exact hsame rfl rfl
  | freeFrame page =>
    obtain rfl := Option.some.inj hs
    rcases freeFrame_cases (s := s) (p := page) with ⟨-, he⟩ | ⟨-, he⟩
    · exact hsame (by rw [he]) (by rw [he])
    · exact hsame (by rw [he]; rfl) (by rw [he]; rfl)
  | clonePageDirectory src =>
    obtain ⟨⟨pd', s₁⟩, hd, rfl⟩ := Option.map_eq_some_iff.mp hs
    refine ⟨hm.current.trans (clonePageDirectory_current hd).symm, fun k hk => ?_⟩
    rw [(clonePageDirectory_spec (h.source hc.1) hd h0).phys f k (hp.used h.toWorld) hk]
    exact hm.bytes k hk
  | kmalloc size =>
    obtain ⟨⟨a, pa, s₁⟩, hi, rfl⟩ := Option.map_eq_some_iff.mp hs
    obtain ⟨_, _, _, _, rfl⟩ := ikmalloc_same hi
    exact hsame rfl rfl
  | switchPageDirectory pd' =>
    obtain rfl := Option.some.inj hs
    exact ⟨rfl, hm.bytes⟩
  | store vaddr value =>
    obtain rfl := Option.some.inj hs
    exact hm.store h hp hc.1.1 value

-- ---------------------------------------------------------------------------
-- Runs
-- ---------------------------------------------------------------------------

def Shows (s : VmState) (pd v : Nat) (bytes : Nat → BitVec 8) : Prop :=
  ∀ k < frameSize, loadByte s pd (v / frameSize * frameSize + k) = some (bytes k)

theorem shows_iff {bytes : Nat → BitVec 8} (hf : frameAt s pd v = some f) :
    Shows s pd v bytes ↔ ∀ k < frameSize, s.phys (f * frameSize + k) = bytes k := by
  refine forall_congr' fun k => forall_congr' fun hk => ?_
  have hpage : (v / frameSize * frameSize + k) / frameSize = v / frameSize := by
    simp only [frameSize] at *
    omega
  have hoffset : (v / frameSize * frameSize + k) % frameSize = k := by
    simp only [frameSize] at *
    omega
  rw [loadByte_eq ((frameAt_page hpage).trans hf), hoffset, Option.some.injEq]

theorem MemoryCall.succeeds_of {s'' : VmState} (hs : c.step s = some s'') (h0 : 0 ∉ s''.objects) :
    ∀ s', c.step s = some s' → 0 ∉ s'.objects :=
  fun _ hs' => Option.some.inj (hs.symm.trans hs') ▸ h0

section
variable {kernel writable : Bool} {s₁ s₂ s₃ s₄ : VmState} (h : OwnPage kernel writable s₁ s₂ s₃ s₄)
include h

end

end

end Shigure.Paging
