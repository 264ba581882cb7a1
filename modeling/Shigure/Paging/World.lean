import Shigure.Paging.Isolation

/-!
# Page directories that the kernel makes

What `get_page`, `alloc_frame` and `clone_page_directory` keep of all page
directories: an entry is present when there is a table, a frame number other
than 0 stands in a present entry only, and a table is at one index.
-/

namespace Shigure.Paging

open Pm (FrameState frameSize freeFrames)

/-- Index `i` has no table, or one that can be written through. -/
def PageDirectory.Ok (d : PageDirectory) (i : Nat) : Prop :=
  (d.tables i = 0 ∧ anyOf (d.entries i) pagePresent = false) ∨
  (d.tables i ≠ 0 ∧ anyOf (d.entries i) pagePresent = true ∧ anyOf (d.entries i) pageRw = true)

structure World (s : VmState) : Prop where
  sound : Sound s
  owned : Owned s
  kernelDirectory : s.kernelPd ∈ s.directories
  pdes : ∀ pd ∈ s.directories, ∀ i < pdEntries, (s.pageDirectories pd).Ok i
  entries : ∀ pd ∈ s.directories, ∀ i < pdEntries, (s.pageDirectories pd).tables i ≠ 0 →
    ∀ j < ptEntries, pteToPfn (s.entry ⟨(s.pageDirectories pd).tables i, j⟩) ≠ 0 →
    anyOf (s.entry ⟨(s.pageDirectories pd).tables i, j⟩) pagePresent = true
  index : ∀ pd ∈ s.directories, ∀ pd' ∈ s.directories, ∀ i < pdEntries, ∀ i' < pdEntries,
    (s.pageDirectories pd).tables i ≠ 0 →
    (s.pageDirectories pd).tables i = (s.pageDirectories pd').tables i' → i = i'

section
variable {s s' s₁ : VmState} {p : Slot} {src pd t vaddr : Nat} {kernel writable : Bool}

theorem PageDirectory.Ok.present {d : PageDirectory} {i : Nat} (h : d.Ok i) :
    anyOf (d.entries i) pagePresent = true ↔ d.tables i ≠ 0 := by
  rcases h with ⟨h0, hp⟩ | ⟨h0, hp, -⟩
  · simp [h0, hp]
  · simp [h0, hp]

-- ---------------------------------------------------------------------------
-- Every directory can be cloned
-- ---------------------------------------------------------------------------

theorem World.source (h : World s) (hsrc : src ∈ s.directories) : Source s src where
  sound := h.sound
  layout := h.owned.layout
  small := h.owned.small
  srcDirectory := hsrc
  kernelDirectory := h.kernelDirectory
  srcTables := h.owned.pointers src
  kernelTables := h.owned.pointers s.kernelPd
  used i _ h0 j _ hm := (h.owned.used _ ((h.owned.pointers src i).resolve_left h0) hm).2
  lone i hi i' hi' h0 h0' j _ j' _ hm hm' hz hz' := by
    have he := h.owned.apart _ _ ((h.owned.pointers src i).resolve_left h0)
      ((h.owned.pointers src i').resolve_left h0') hm hm' (hz.trans hz'.symm)
    simp only [Slot.mk.injEq] at he
    exact ⟨h.index src hsrc src hsrc i hi i' hi' h0 he.1, he.2⟩

theorem World.separate (h : World s) (hsrc : src ∈ s.directories) : Separate s src := by
  refine ⟨fun i hi => (h.pdes src hsrc i hi).present, fun v hv h0 => ?_, fun v hv w hw f _ hf hf' => ?_⟩
  · rw [findPage_of_table h0]
    exact h.entries src hsrc _ (pdIndex_lt hv) h0 _ ptIndex_lt
  · obtain ⟨hp, hm, he⟩ := frameAt_eq_some.mp hf
    obtain ⟨hp', hm', he'⟩ := frameAt_eq_some.mp hf'
    have h0 := (h.pdes src hsrc _ (pdIndex_lt hv)).present.mp hp
    have h0' := (h.pdes src hsrc _ (pdIndex_lt hw)).present.mp hp'
    have hslot := h.owned.apart _ _ ((h.owned.pointers src _).resolve_left h0)
      ((h.owned.pointers src _).resolve_left h0') (.inr hm) (.inr hm') (he.trans he'.symm)
    simp only [Slot.mk.injEq] at hslot
    rw [page_eq, page_eq, hslot.2,
      h.index src hsrc src hsrc _ (pdIndex_lt hv) _ (pdIndex_lt hw) h0 hslot.1]

-- ---------------------------------------------------------------------------
-- One call
-- ---------------------------------------------------------------------------

/-- The allocator of kernel memory is not looked at, except for what it has handed
out. -/
theorem World.congr (h : World s) (hs : Sound s') (ho : Owned s') (ht : s'.pageTables = s.pageTables)
    (hd : s'.pageDirectories = s.pageDirectories) (hk : s'.kernelPd = s.kernelPd)
    (hds : s'.directories = s.directories) : World s' := by
  have he : s'.entry = s.entry := by
    funext p
    simp only [VmState.entry, ht]
  refine ⟨hs, ho, by rw [hk, hds]; exact h.kernelDirectory, ?_, ?_, ?_⟩ <;> rw [hds, hd]
  · exact h.pdes
  · rw [he]
    exact h.entries
  · exact h.index

theorem World.allocFrame (h : World s) (ha : allocFrame p kernel writable s = some s') : World s' := by
  have ho := (h.owned.allocFrame ha).1
  rcases allocFrame_cases h.owned.layout ha with ⟨-, rfl⟩ | ⟨-, f, frames, -, -, -, -, rfl⟩
  · exact h
  · refine ⟨h.sound.congr rfl rfl (List.Perm.refl _), ho, h.kernelDirectory, h.pdes, ?_, h.index⟩
    intro pd hpd i hi h0 j hj
    by_cases he : (⟨(s.pageDirectories pd).tables i, j⟩ : Slot) = p
    · intro _
      show anyOf (VmState.entry _ (⟨(s.pageDirectories pd).tables i, j⟩ : Slot)) _ = true
      rw [he, entry_setEntry_self]
      exact frameEntry_present f kernel writable
    · show pteToPfn (VmState.entry _ (⟨(s.pageDirectories pd).tables i, j⟩ : Slot)) ≠ 0 →
        anyOf (VmState.entry _ (⟨(s.pageDirectories pd).tables i, j⟩ : Slot)) _ = true
      rw [entry_setEntry_ne he]
      exact h.entries pd hpd i hi h0 j hj

theorem setPde_table (pd i t d k : Nat) (pde : BitVec 32) :
    ((s.setPde pd i t pde).pageDirectories d).tables k =
      if d = pd ∧ k = i then t else (s.pageDirectories d).tables k := by
  by_cases hd : d = pd
  · subst hd
    simp only [VmState.setPde, VmState.setDirectory, ↓reduceIte, true_and]
  · simp only [VmState.setPde, VmState.setDirectory, hd, false_and, ↓reduceIte]

theorem setPde_entry (pd i t d k : Nat) (pde : BitVec 32) :
    ((s.setPde pd i t pde).pageDirectories d).entries k =
      if d = pd ∧ k = i then pde else (s.pageDirectories d).entries k := by
  by_cases hd : d = pd
  · subst hd
    simp only [VmState.setPde, VmState.setDirectory, ↓reduceIte, true_and]
  · simp only [VmState.setPde, VmState.setDirectory, hd, false_and, ↓reduceIte]

theorem newPde_flags (pa : BitVec 32) : anyOf (pa ||| pagePresent ||| pageRw) pagePresent = true ∧
    anyOf (pa ||| pagePresent ||| pageRw) pageRw = true := by
  have hself : anyOf pagePresent pagePresent = true ∧ anyOf pageRw pageRw = true := by decide
  simp only [anyOf_or, hself, Bool.or_true, Bool.true_or, and_self]

theorem World.table (h : World s) {d k : Nat} (h0 : (s.pageDirectories d).tables k ≠ 0) :
    (s.pageDirectories d).tables k ∈ s.made := (h.owned.pointers d k).resolve_left h0

structure TableAdded (s s' : VmState) (pd i t : Nat) (pde : BitVec 32) : Prop where
  absent : (s.pageDirectories pd).tables i = 0
  table : ∀ d k, (s'.pageDirectories d).tables k =
    if d = pd ∧ k = i then t else (s.pageDirectories d).tables k
  entry : ∀ d k, (s'.pageDirectories d).entries k =
    if d = pd ∧ k = i then pde else (s.pageDirectories d).entries k
  paddrPde : ∀ d, (s'.pageDirectories d).paddrPde = (s.pageDirectories d).paddrPde
  pte : ∀ q : Slot, s'.entry q = if q.table = t then pageRw else s.entry q
  kernelPd : s'.kernelPd = s.kernelPd
  directories : s'.directories = s.directories
  made : s'.made = t :: s.made
  fresh : t ∉ s.made
  low : Vm.KHeap.kheapStart ≤ t
  high : t + pageTableSize ≤ Vm.KHeap.kheapEnd
  aligned : Vm.pageSize ∣ t

theorem TableAdded.ne_zero {i : Nat} {pde : BitVec 32} (h : TableAdded s s' pd i t pde) : t ≠ 0 := by
  rintro rfl
  exact absurd h.low (by decide)

theorem Sound.getPage (h : Sound s) (hg : getPage vaddr pd true s = some (p, s')) : Sound s' ∧
    ((∃ kheap held, s' = { s with kheap := kheap, held := held }) ∨
      ∃ t, p = ⟨t, ptIndex vaddr⟩ ∧ TableAdded s s' pd (pdIndex vaddr) t
        (kernelPhys t s ||| pagePresent ||| pageRw)) := by
  rcases getPage_cases hg with ⟨-, -, rfl⟩ | ⟨habsent, t, pa, s₁, hi, ⟨-, -, rfl⟩ | ⟨ht0, rfl, hs'⟩⟩
  · exact ⟨h, .inl ⟨_, _, rfl⟩⟩
  · obtain ⟨⟨_, _, rfl⟩, hs1, -, -⟩ := h.ikmalloc (by decide) hi
    exact ⟨hs1, .inl ⟨_, _, rfl⟩⟩
  · obtain ⟨⟨_, _, rfl⟩, hs1, rfl, hblock⟩ := h.ikmalloc (by decide) hi
    have hb := hblock ht0
    refine ⟨hs1.addTable hb (by rw [hs']; rfl) (by rw [hs']; rfl) (by rw [hs']; rfl)
      (by rw [hs']; rfl), .inr ⟨t, rfl, ?_⟩⟩
    rw [hs']
    refine ⟨habsent, fun d k => setPde_table _ _ _ d k _, fun d k => setPde_entry _ _ _ d k _, fun d => ?_,
      fun q => entry_setTable t fun _ => pageRw, rfl, rfl, rfl,
      fun hin => hb.apart (List.mem_append_left _ hin), hb.low, hb.high, hb.aligned⟩
    simp only [VmState.setPde, VmState.setDirectory, VmState.setTable]
    split
    · rw [‹d = pd›]
    · rfl

/-- None of the tables that directories point to is new. -/
theorem World.addTable (h : World s) {i : Nat} {pa : BitVec 32} (hs : Sound s') (ho : Owned s')
    (ha : TableAdded s s' pd i t (pa ||| pagePresent ||| pageRw)) : World s' := by
  refine ⟨hs, ho, by rw [ha.kernelPd, ha.directories]; exact h.kernelDirectory, ?_, ?_, ?_⟩ <;>
    rw [ha.directories]
  · intro d hd k hk
    rw [PageDirectory.Ok, ha.table, ha.entry]
    split
    · exact .inr ⟨ha.ne_zero, newPde_flags pa⟩
    · exact h.pdes d hd k hk
  · intro d hd k hk
    rw [ha.table]
    split
    · intro _ j _
      rw [ha.pte, if_pos rfl]
      exact fun hz => absurd pteToPfn_rw hz
    · intro h0 j hj
      have hne : (s.pageDirectories d).tables k ≠ t := fun he => ha.fresh (he ▸ h.table h0)
      rw [ha.pte, if_neg hne]
      exact h.entries d hd k hk h0 j hj
  · intro d hd d' hd' k hk k' hk'
    rw [ha.table, ha.table]
    by_cases hnew : d = pd ∧ k = i <;> by_cases hnew' : d' = pd ∧ k' = i
    · rw [hnew.2, hnew'.2]
      exact fun _ _ => rfl
    · rw [if_pos hnew, if_neg hnew']
      intro _ he
      exact absurd (he ▸ h.table (he ▸ ha.ne_zero)) ha.fresh
    · rw [if_neg hnew, if_pos hnew']
      intro h0 he
      exact absurd (he ▸ h.table h0) ha.fresh
    · rw [if_neg hnew, if_neg hnew']
      exact h.index d hd d' hd' k hk k' hk'

theorem World.getPage (h : World s) (hg : getPage vaddr pd true s = some (p, s')) : World s' := by
  have ho := h.owned.getPage hg
  obtain ⟨hs, ⟨_, _, rfl⟩ | ⟨t, -, ha⟩⟩ := h.sound.getPage hg
  · exact h.congr hs ho rfl rfl rfl rfl
  · exact h.addTable hs ho ha

theorem World.freeFrame (h : World s) (hp : p.table ∈ s.made) : World (freeFrame p s) := by
  have ho := h.owned.freeFrame hp
  rw [Paging.freeFrame] at *
  split
  · exact h
  · rename_i hpfn
    rw [if_neg hpfn] at ho
    refine ⟨h.sound.congr rfl rfl (List.Perm.refl _), ho, h.kernelDirectory, h.pdes, ?_, h.index⟩
    intro pd hpd i hi h0 j hj
    by_cases he : (⟨(s.pageDirectories pd).tables i, j⟩ : Slot) = p
    · show pteToPfn (VmState.entry _ (⟨(s.pageDirectories pd).tables i, j⟩ : Slot)) ≠ 0 → _
      rw [he, entry_setEntry_self]
      exact fun hne => absurd (high_and _ low_rw) hne
    · show pteToPfn (VmState.entry _ (⟨(s.pageDirectories pd).tables i, j⟩ : Slot)) ≠ 0 →
        anyOf (VmState.entry _ (⟨(s.pageDirectories pd).tables i, j⟩ : Slot)) _ = true
      rw [entry_setEntry_ne he]
      exact h.entries pd hpd i hi h0 j hj

theorem copiedPde_flags (pa : BitVec 32) :
    anyOf (pa ||| pagePresent ||| pageRw ||| pageUser) pagePresent = true ∧
    anyOf (pa ||| pagePresent ||| pageRw ||| pageUser) pageRw = true ∧
    anyOf (pa ||| pagePresent ||| pageRw ||| pageUser) pageUser = true := by
  have hself : anyOf pageUser pageUser = true := by decide
  rw [anyOf_or, anyOf_or (pa ||| pagePresent ||| pageRw) pageUser pageRw,
    anyOf_or (pa ||| pagePresent ||| pageRw) pageUser pageUser, (newPde_flags pa).1,
    (newPde_flags pa).2, hself, Bool.true_or, Bool.true_or, Bool.or_true]
  exact ⟨rfl, rfl, rfl⟩

theorem Copied.present {e e' : BitVec 32} (h : Copied s s' e e') (h0 : pteToPfn e' ≠ 0) :
    anyOf e' pagePresent = true := by
  rcases h with ⟨-, rfl⟩ | ⟨-, f, -, -, rfl, -⟩
  · exact absurd pteToPfn_rw h0
  · rw [(anyOf_cloneFlags _ _).1, frameEntry_present, Bool.true_or]

theorem World.clone (h : World s) (hsrc : src ∈ s.directories)
    (hc : clonePageDirectory src s = some (pd, s')) (h0 : 0 ∉ s'.objects) : World s' := by
  have hd := clonePageDirectory_spec (h.source hsrc) hc h0
  have h0' : 0 ∉ s'.made := fun hin => h0 (List.mem_append_left _ hin)
  -- an index of the clone is one of the source, or has a new table
  have htable : ∀ i < pdEntries, (s'.pageDirectories pd).tables i ≠ 0 →
      (s'.pageDirectories pd).tables i = (s.pageDirectories src).tables i ∧
        (s'.pageDirectories pd).tables i ∈ s.made ∨ (s'.pageDirectories pd).tables i ∉ s.made := by
    intro i hi hne
    rcases (hd.pdes i hi).table_cases with hz | he | hnew
    · exact absurd hz hne
    · exact .inl ⟨he, he ▸ h.table (he ▸ hne)⟩
    · exact .inr hnew.fresh
  refine ⟨hd.sound, h.owned.clonePageDirectory hc, ?_, ?_, ?_, ?_⟩ <;> rw [hd.directories]
  · rw [hd.kernelPd]
    exact List.mem_cons_of_mem _ h.kernelDirectory
  · intro d hin i hi
    rcases List.mem_cons.mp hin with rfl | hin
    · cases hd.pdes i hi with
      | absent _ htable hpde => exact .inl ⟨htable, by rw [hpde]; decide⟩
      | linked hne _ htable hpde =>
        rw [PageDirectory.Ok, htable, hpde]
        exact h.pdes src hsrc i hi
      | copied _ _ hnew hpde =>
        refine .inr ⟨fun hz => h0' (hz ▸ hnew.made), ?_⟩
        rw [hpde]
        exact ⟨(copiedPde_flags _).1, (copiedPde_flags _).2.1⟩
    · rw [hd.old hin]
      exact h.pdes d hin i hi
  · intro d hin i hi hne j hj
    rcases List.mem_cons.mp hin with rfl | hin
    · cases hd.pdes i hi with
      | absent _ htable => exact absurd htable hne
      | linked hne' _ htable =>
        rw [htable, hd.entry (p := ⟨_, j⟩) (h.table hne')]
        exact h.entries src hsrc i hi hne' j hj
      | copied _ _ _ _ hentries => exact (hentries j hj).present
    · rw [hd.old hin] at hne ⊢
      rw [hd.entry (p := ⟨_, j⟩) (h.table hne)]
      exact h.entries d hin i hi hne j hj
  · intro d hin d' hin' i hi i' hi' hne he
    rcases List.mem_cons.mp hin with rfl | hd1 <;> rcases List.mem_cons.mp hin' with rfl | hd2
    · rcases htable i hi hne with ⟨hold, hmade⟩ | hnew
      · rcases htable i' hi' (he ▸ hne) with ⟨hold', -⟩ | hnew'
        · exact h.index src hsrc src hsrc i hi i' hi' (hold ▸ hne) (hold.symm.trans (he.trans hold'))
        · exact absurd (he ▸ hmade) hnew'
      · exact hd.apart i hi i' hi' hnew hne he
    · rw [hd.old hd2] at he
      rcases htable i hi hne with ⟨hold, -⟩ | hnew
      · exact h.index src hsrc d' hd2 i hi i' hi' (hold ▸ hne) (hold.symm.trans he)
      · exact absurd (he ▸ h.table (he ▸ hne)) hnew
    · rw [hd.old hd1] at hne he
      rcases htable i' hi' (he ▸ hne) with ⟨hold', -⟩ | hnew'
      · exact h.index d hd1 src hsrc i hi i' hi' hne (he.trans hold')
      · exact absurd (he ▸ h.table hne) hnew'
    · rw [hd.old hd1] at hne he
      rw [hd.old hd2] at he
      exact h.index d hd1 d' hd2 i hi i' hi' hne he

end

end Shigure.Paging
