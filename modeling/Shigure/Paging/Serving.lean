import Shigure.Paging.Growth
import Shigure.Paging.Supply
import Shigure.Paging.Walks

/-!
# Pages on request

`get_page` makes the table of a page if it is missing, and `alloc_frame` gives the page
a frame. Here one page of a directory is asked for after the other; what each step does
to this page and to the others is said once.
-/

namespace Shigure.Paging

open Pm (FrameState frameSize pfree freeFrames)
open Vm (PageRequest)

/-- `alloc_frame(get_page(...), ...)` for one page of the directory after the other. -/
def serve (pd : Nat) : List PageRequest → VmState → Option VmState
  | [], s => some s
  | r :: rs, s => do
    let (page, s) ← getPage r.vaddr pd true s
    let s ← allocFrame page r.kernel r.writable s
    serve pd rs s

def Maps (s : VmState) (pd v : Nat) : Prop := (frameAt s pd v).isSome = true

def ProvidedIn (pd : Nat) : List PageRequest → VmState → Prop
  | [], _ => True
  | r :: rs, s => ∃ page s₁, getPage r.vaddr pd true s = some (page, s₁) ∧ page ≠ .null ∧
      ∀ s₂, allocFrame page r.kernel r.writable s₁ = some s₂ → ProvidedIn pd rs s₂

def slotAt (s : VmState) (pd v : Nat) : Slot :=
  ⟨(s.pageDirectories pd).tables (pdIndex v), ptIndex v⟩

/-- What stays while pages are served. -/
structure Kept (s s' : VmState) : Prop where
  kernelPd : s'.kernelPd = s.kernelPd
  currentPd : s'.currentPd = s.currentPd
  directories : s'.directories = s.directories
  phys : s'.phys = s.phys

section
variable {s s' s₁ s₂ : VmState} {p : Slot} {pd d u v f vaddr : Nat} {pte : BitVec 32}
  {frames : FrameState} {kernel writable : Bool} {r : PageRequest} {rs : List PageRequest}

theorem Kept.refl (s : VmState) : Kept s s := ⟨rfl, rfl, rfl, rfl⟩

theorem Kept.trans (h₁ : Kept s s₁) (h₂ : Kept s₁ s₂) : Kept s s₂ :=
  ⟨h₂.kernelPd.trans h₁.kernelPd, h₂.currentPd.trans h₁.currentPd,
    h₂.directories.trans h₁.directories, h₂.phys.trans h₁.phys⟩

theorem getPage_kept (hg : getPage vaddr pd true s = some (p, s')) :
    Kept s s' ∧ s'.frames = s.frames := by
  rcases getPage_cases hg with ⟨-, -, rfl⟩ | ⟨-, t, pa, s₁, hi, ⟨-, -, rfl⟩ | ⟨-, -, rfl⟩⟩
  · exact ⟨.refl s', rfl⟩
  · obtain ⟨_, _, _, _, rfl⟩ := ikmalloc_same hi
    exact ⟨⟨rfl, rfl, rfl, rfl⟩, rfl⟩
  · obtain ⟨_, _, _, _, rfl⟩ := ikmalloc_same hi
    exact ⟨⟨rfl, rfl, rfl, rfl⟩, rfl⟩

theorem allocFrame_kept (ha : allocFrame p kernel writable s = some s') : Kept s s' := by
  obtain ⟨_, _, rfl⟩ := allocFrame_same ha
  exact ⟨rfl, rfl, rfl, rfl⟩

theorem serve_cons (h : serve pd (r :: rs) s = some s') :
    ∃ page s₁ s₂, getPage r.vaddr pd true s = some (page, s₁) ∧
      allocFrame page r.kernel r.writable s₁ = some s₂ ∧ serve pd rs s₂ = some s' := by
  obtain ⟨⟨page, s₁⟩, h1, h⟩ := Option.bind_eq_some_iff.mp h
  obtain ⟨s₂, h2, h⟩ := Option.bind_eq_some_iff.mp h
  exact ⟨page, s₁, s₂, h1, h2, h⟩

theorem serve_kept (hs : serve pd rs s = some s') : Kept s s' := by
  induction rs generalizing s with
  | nil =>
    cases hs
    exact .refl _
  | cons r rs ih =>
    obtain ⟨page, s₁, s₂, h1, h2, hlater⟩ := serve_cons hs
    exact ((getPage_kept h1).1.trans (allocFrame_kept h2)).trans (ih hlater)

theorem World.serve (hw : World s) (hs : serve pd rs s = some s') : World s' := by
  induction rs generalizing s with
  | nil =>
    cases hs
    exact hw
  | cons r rs ih =>
    obtain ⟨page, s₁, s₂, h1, h2, hlater⟩ := serve_cons hs
    exact ih ((hw.getPage h1).allocFrame h2) hlater

-- ---------------------------------------------------------------------------
-- One entry
-- ---------------------------------------------------------------------------

theorem maps_iff : Maps s pd v ↔
    anyOf ((s.pageDirectories pd).entries (pdIndex v)) pagePresent = true ∧
      anyOf (s.entry (slotAt s pd v)) pagePresent = true := by
  rw [Maps, Option.isSome_iff_exists]
  constructor
  · rintro ⟨f, hf⟩
    obtain ⟨h1, h2, -⟩ := frameAt_eq_some.mp hf
    exact ⟨h1, h2⟩
  · rintro ⟨h1, h2⟩
    exact ⟨_, frameAt_eq_some.mpr ⟨h1, h2, rfl⟩⟩

theorem World.slotAt_inj (hw : World s) (hd : d ∈ s.directories) (hu : u < wordSize)
    (hv : v < wordSize) (h0 : (slotAt s d v).table ≠ 0) (he : slotAt s d u = slotAt s d v) :
    u / frameSize = v / frameSize := by
  obtain ⟨ht, hi⟩ := Slot.mk.inj he
  have hidx := hw.index _ hd _ hd _ (pdIndex_lt hu) _ (pdIndex_lt hv) (ht ▸ h0) ht
  rw [page_eq, page_eq, hidx, hi]

theorem World.maps_table (hw : World s) (hd : d ∈ s.directories) (hv : v < wordSize)
    (hm : Maps s d v) : (slotAt s d v).table ≠ 0 :=
  (hw.pdes _ hd _ (pdIndex_lt hv)).present.mp (maps_iff.mp hm).1

theorem findPage_slotAt (h0 : (slotAt s d v).table ≠ 0) : findPage v d s = slotAt s d v := if_neg h0

theorem World.frameAt_setEntry (hw : World s) (hd : d ∈ s.directories) (hu : u < wordSize)
    (hv : v < wordSize) (h0 : (slotAt s d v).table ≠ 0) (hne : u / frameSize ≠ v / frameSize) :
    frameAt ({ s with frames := frames }.setEntry (slotAt s d v) pte) d u = frameAt s d u := by
  have hslot : slotAt s d u ≠ slotAt s d v := fun he => hne (hw.slotAt_inj hd hu hv h0 he)
  have hentry : VmState.entry ({ s with frames := frames }.setEntry (slotAt s d v) pte)
      (slotAt s d u) = s.entry (slotAt s d u) := entry_setEntry_ne hslot
  show (if anyOf _ pagePresent && anyOf (VmState.entry _ (slotAt s d u)) pagePresent then
    some (pteToPfn (VmState.entry _ (slotAt s d u))) else none) = _
  rw [hentry]
  rfl

theorem World.frameAt_setEntry_self (hw : World s) (hd : d ∈ s.directories) (hv : v < wordSize)
    (h0 : (slotAt s d v).table ≠ 0) :
    frameAt ({ s with frames := frames }.setEntry (slotAt s d v) pte) d v =
      if anyOf pte pagePresent then some (pteToPfn pte) else none := by
  have hpde := (hw.pdes _ hd _ (pdIndex_lt hv)).present.mpr h0
  have hentry : VmState.entry ({ s with frames := frames }.setEntry (slotAt s d v) pte)
      (slotAt s d v) = pte := entry_setEntry_self
  show (if anyOf ((s.pageDirectories d).entries (pdIndex v)) pagePresent &&
    anyOf (VmState.entry _ (slotAt s d v)) pagePresent then
    some (pteToPfn (VmState.entry _ (slotAt s d v))) else none) = _
  rw [hentry, hpde, Bool.true_and]

theorem World.frameAt_getPage (hw : World s) (hd : d ∈ s.directories)
    (hg : Paging.getPage vaddr pd true s = some (p, s')) (hu : u < wordSize) :
    frameAt s' d u = frameAt s d u := by
  obtain ⟨-, ⟨_, _, rfl⟩ | ⟨t, -, ha⟩⟩ := hw.sound.getPage hg
  · rfl
  · exact ha.frameAt_same hw hd hu

-- ---------------------------------------------------------------------------
-- Pages that are there stay
-- ---------------------------------------------------------------------------

theorem Maps.allocFrame (h : Maps s d v) (hl : s.frames.Layout)
    (ha : allocFrame p kernel writable s = some s') : Maps s' d v := by
  rcases allocFrame_cases hl ha with ⟨-, rfl⟩ | ⟨-, f, frames, -, -, -, -, rfl⟩
  · exact h
  · obtain ⟨h1, h2⟩ := maps_iff.mp h
    refine maps_iff.mpr ⟨h1, ?_⟩
    show anyOf (VmState.entry _ (slotAt s d v)) pagePresent = true
    by_cases he : slotAt s d v = p
    · rw [he, entry_setEntry_self]
      exact frameEntry_present f kernel writable
    · rw [entry_setEntry_ne he]
      exact h2

theorem Maps.getPage (h : Maps s d v) (hw : World s) (hd : d ∈ s.directories) (hv : v < wordSize)
    (hg : getPage vaddr pd true s = some (p, s')) : Maps s' d v := by
  rw [Maps, hw.frameAt_getPage hd hg hv]
  exact h

theorem Maps.serve (h : Maps s d v) (hw : World s) (hd : d ∈ s.directories) (hv : v < wordSize)
    (hs : serve pd rs s = some s') : Maps s' d v := by
  induction rs generalizing s with
  | nil =>
    cases hs
    exact h
  | cons r rs ih =>
    obtain ⟨page, s₁, s₂, h1, h2, hlater⟩ := serve_cons hs
    have hw1 := hw.getPage h1
    refine ih ((h.getPage hw hd hv h1).allocFrame hw1.owned.layout h2) (hw1.allocFrame h2) ?_ hlater
    rwa [(allocFrame_kept h2).directories, (getPage_kept h1).1.directories]

-- ---------------------------------------------------------------------------
-- No memory for a table
-- ---------------------------------------------------------------------------

def NoTable (s : VmState) : Prop :=
  ∃ kheap, s.kheap = some kheap ∧ Vm.KHeap.ikmalloc pageTableSize true kheap = some (0, kheap)

theorem getPage_null (hw : World s) (hg : getPage vaddr pd true s = some (.null, s')) :
    s' = s ∧ NoTable s ∧ (s.pageDirectories pd).tables (pdIndex vaddr) = 0 := by
  rcases getPage_cases hg with ⟨h0, he, -⟩ | ⟨h0, t, pa, s₁, hi, ⟨rfl, -, rfl⟩ | ⟨ht, he, -⟩⟩
  · rw [findPage, if_neg h0, Slot.null, Slot.mk.injEq] at he
    exact absurd he.1.symm h0
  · obtain ⟨kheap, t, hk, hgood⟩ := hw.sound.heap
    rw [ikmalloc, hk] at hi
    obtain ⟨⟨a, kheap'⟩, hm, hi⟩ := Option.bind_eq_some_iff.mp hi
    simp only [Option.some.injEq, Prod.mk.injEq] at hi
    obtain ⟨rfl, -, rfl⟩ := hi
    rcases hgood.ikmalloc (by decide) hm with ⟨-, rfl⟩ | ⟨hle, -⟩
    · refine ⟨?_, ⟨_, hk, hm⟩, h0⟩
      rw [if_pos rfl, ← hk]
    · exact absurd hle (by decide)
  · rw [Slot.null, Slot.mk.injEq] at he
    exact absurd he.1.symm ht

theorem getPage_noTable (h : NoTable s) (hg : getPage vaddr pd true s = some (p, s')) : s' = s := by
  obtain ⟨kheap, hk, hm⟩ := h
  rcases getPage_cases hg with ⟨-, -, rfl⟩ | ⟨-, t, pa, s₁, hi, hs⟩
  · rfl
  · rw [ikmalloc_heap hk hm, if_pos rfl, ← hk] at hi
    cases hi
    rcases hs with ⟨-, -, rfl⟩ | ⟨ht, -⟩
    · rfl
    · exact absurd rfl ht

theorem NoTable.allocFrame (h : NoTable s) (ha : allocFrame p kernel writable s = some s') :
    NoTable s' := by
  obtain ⟨_, _, rfl⟩ := allocFrame_same ha
  exact h

theorem serve_noTable (h : NoTable s) (hs : serve pd rs s = some s') :
    s'.pageDirectories = s.pageDirectories := by
  induction rs generalizing s with
  | nil =>
    cases hs
    rfl
  | cons r rs ih =>
    obtain ⟨page, s₁, s₂, h1, h2, hlater⟩ := serve_cons hs
    obtain rfl := getPage_noTable h h1
    have hd := ih (h.allocFrame h2) hlater
    obtain ⟨_, _, rfl⟩ := allocFrame_same h2
    exact hd

-- ---------------------------------------------------------------------------
-- Serving the requests
-- ---------------------------------------------------------------------------

theorem getPage_slot (hg : getPage vaddr pd true s = some (p, s₁)) (hp : p ≠ .null) :
    (slotAt s₁ pd vaddr).table ≠ 0 ∧ p = slotAt s₁ pd vaddr := by
  rcases getPage_cases hg with ⟨h0, rfl, rfl⟩ | ⟨-, t, pa, s₂, -, ⟨-, rfl, -⟩ | ⟨ht, rfl, rfl⟩⟩
  · exact ⟨h0, if_neg h0⟩
  · exact absurd rfl hp
  · rw [slotAt, setPde_table, if_pos ⟨rfl, rfl⟩]
    exact ⟨ht, rfl⟩

theorem maps_of_page (hw : World s) (hpd : pd ∈ s.directories) (hv : v < wordSize)
    (hg : getPage v pd true s = some (p, s₁)) (hp : p ≠ .null)
    (ha : allocFrame p kernel writable s₁ = some s') : Maps s' pd v := by
  have hw1 := hw.getPage hg
  rw [← (getPage_kept hg).1.directories] at hpd
  obtain ⟨h0, rfl⟩ := getPage_slot hg hp
  have hpde := (hw1.pdes _ hpd _ (pdIndex_lt hv)).present.mpr h0
  rcases allocFrame_cases hw1.owned.layout ha with ⟨hpfn, rfl⟩ | ⟨-, f, frames, -, -, -, -, rfl⟩
  · exact maps_iff.mpr ⟨hpde, hw1.entries _ hpd _ (pdIndex_lt hv) h0 _ ptIndex_lt hpfn⟩
  · refine maps_iff.mpr ⟨hpde, ?_⟩
    show anyOf (VmState.entry _ (slotAt s₁ pd v)) pagePresent = true
    rw [entry_setEntry_self]
    exact frameEntry_present f kernel writable

/-- A page that is there in the end was not `NULL`. -/
theorem page_of_served (hw : World s) (hpd : pd ∈ s.directories) (hv : v < wordSize)
    (h1 : getPage v pd true s = some (p, s₁)) (h2 : allocFrame p kernel writable s₁ = some s₂)
    (hs : serve pd rs s₂ = some s') (hm : Maps s' pd v) : p ≠ .null := by
  rintro rfl
  obtain ⟨rfl, hnone, h0⟩ := getPage_null hw h1
  have hd := serve_noTable (hnone.allocFrame h2) hs
  obtain ⟨_, _, rfl⟩ := allocFrame_same h2
  have hpde := (maps_iff.mp hm).1
  rw [hd] at hpde
  exact (hw.pdes _ hpd _ (pdIndex_lt hv)).present.mp hpde h0

/-- All pages are there afterwards if and only if `get_page` never fails. -/
theorem served_iff (hw : World s) (hpd : pd ∈ s.directories)
    (hframes : rs.length ≤ (freeFrames s.frames).ncard) (hrs : ∀ r ∈ rs, r.vaddr < wordSize) :
    (∃ s', serve pd rs s = some s' ∧ ∀ r ∈ rs, Maps s' pd r.vaddr) ↔ ProvidedIn pd rs s := by
  induction rs generalizing s with
  | nil => exact iff_of_true ⟨s, rfl, by simp⟩ trivial
  | cons r rs ih =>
    have hr := hrs r List.mem_cons_self
    have hrest := fun r' h => hrs r' (List.mem_cons_of_mem r h)
    rw [List.length_cons] at hframes
    -- one round leaves as many frames as the others need
    have hspend : ∀ {page s₁}, getPage r.vaddr pd true s = some (page, s₁) →
        ∃ s₂, allocFrame page r.kernel r.writable s₁ = some s₂ ∧ World s₂ ∧
          pd ∈ s₂.directories ∧ rs.length ≤ (freeFrames s₂.frames).ncard := by
      intro page s₁ h1
      have hw1 := hw.getPage h1
      obtain ⟨hkept, hsame⟩ := getPage_kept h1
      obtain ⟨s₂, h2, -, hleft⟩ := allocFrame_spends hw1.owned.layout (by rw [hsame]; exact hframes)
        page r.kernel r.writable
      refine ⟨s₂, h2, hw1.allocFrame h2, ?_, hleft⟩
      rwa [(allocFrame_kept h2).directories, hkept.directories]
    constructor
    · rintro ⟨s', hs, hall⟩
      obtain ⟨page, s₁, s₂, h1, h2, hlater⟩ := serve_cons hs
      have hpage := page_of_served hw hpd hr h1 h2 hlater (hall r List.mem_cons_self)
      refine ⟨page, s₁, h1, hpage, fun s₃ h3 => ?_⟩
      obtain ⟨s₂', h2', hw2, hpd2, hleft⟩ := hspend h1
      obtain rfl := Option.some.inj (h2.symm.trans h2')
      obtain rfl := Option.some.inj (h2.symm.trans h3)
      exact (ih hw2 hpd2 hleft hrest).mp
        ⟨s', hlater, fun r' hr' => hall r' (List.mem_cons_of_mem r hr')⟩
    · rintro ⟨page, s₁, h1, hpage, hnext⟩
      obtain ⟨s₂, h2, hw2, hpd2, hleft⟩ := hspend h1
      obtain ⟨s', hs, hall⟩ := (ih hw2 hpd2 hleft hrest).mpr (hnext s₂ h2)
      refine ⟨s', ?_, fun r' hr' => ?_⟩
      · rw [serve, h1, Option.bind_eq_bind, Option.bind_some]
        show (allocFrame page r.kernel r.writable s₁ >>= fun s => serve pd rs s) = some s'
        rw [h2]
        exact hs
      · rcases List.mem_cons.mp hr' with rfl | hr'
        · exact (maps_of_page hw hpd hr h1 hpage h2).serve hw2 hpd2 hr hs
        · exact hall r' hr'

-- ---------------------------------------------------------------------------
-- Which frames the pages get
-- ---------------------------------------------------------------------------

/-- A page of `pd` has got its frame: the one it had, unless that was none or frame 0, or
the least free one. -/
structure Served (s s' : VmState) (pd v f : Nat) : Prop where
  world : World s'
  directory : pd ∈ s'.directories
  kept : ∀ u < wordSize, u / frameSize ≠ v / frameSize → frameAt s' pd u = frameAt s pd u
  page : frameAt s' pd v = some f
  frames : frameAt s pd v = some f ∧ f ≠ 0 ∧ freeFrames s'.frames = freeFrames s.frames ∨
    (∀ g, frameAt s pd v = some g → g = 0) ∧ IsLeast (freeFrames s.frames) f ∧
      freeFrames s'.frames = freeFrames s.frames \ {f}

theorem allocFrame_serves (hw : World s) (hpd : pd ∈ s.directories) (hv : v < wordSize)
    (h0 : (slotAt s pd v).table ≠ 0)
    (ha : allocFrame (slotAt s pd v) kernel writable s = some s') : ∃ f, Served s s' pd v f := by
  have hworld := hw.allocFrame ha
  have hpd' : pd ∈ s'.directories := by rwa [(allocFrame_kept ha).directories]
  have hpde := (hw.pdes _ hpd _ (pdIndex_lt hv)).present.mpr h0
  rcases allocFrame_cases hw.owned.layout ha with ⟨hpfn, rfl⟩ | ⟨hpfn, f, frames, hf, -, -, hfree, rfl⟩
  · have hpte := hw.entries _ hpd _ (pdIndex_lt hv) h0 _ ptIndex_lt hpfn
    have hframe := frameAt_eq_some.mpr ⟨hpde, hpte, rfl⟩
    exact ⟨_, hw, hpd, fun _ _ _ => rfl, hframe, .inl ⟨hframe, hpfn, rfl⟩⟩
  · refine ⟨f, hworld, hpd', fun u hu hne => hw.frameAt_setEntry hpd hu hv h0 hne, ?_,
      .inr ⟨fun g hg => ?_, hf, hfree⟩⟩
    · rw [hw.frameAt_setEntry_self hpd hv h0, if_pos (frameEntry_present f kernel writable),
        pteToPfn_frameEntry (hw.owned.lt hf.1) kernel writable]
    · exact (frameAt_eq_some.mp hg).2.2.symm.trans hpfn

theorem getPage_serves (hw : World s) (hpd : pd ∈ s.directories) (hv : v < wordSize)
    (hg : getPage v pd true s = some (p, s₁)) (hp : p ≠ .null)
    (ha : allocFrame p kernel writable s₁ = some s') : ∃ f, Served s s' pd v f := by
  obtain ⟨hkept, hframes⟩ := getPage_kept hg
  obtain ⟨h0, rfl⟩ := getPage_slot hg hp
  obtain ⟨f, h⟩ := allocFrame_serves (hw.getPage hg) (hkept.directories ▸ hpd) hv h0 ha
  have hfrom := h.frames
  rw [hw.frameAt_getPage hpd hg hv, hframes] at hfrom
  exact ⟨f, h.world, h.directory,
    fun u hu hne => (h.kept u hu hne).trans (hw.frameAt_getPage hpd hg hu), h.page, hfrom⟩

/-- A round whose page is there in the end. -/
theorem serve_first (hw : World s) (hpd : pd ∈ s.directories) (hr : r.vaddr < wordSize)
    (hs : serve pd (r :: rs) s = some s') (hm : Maps s' pd r.vaddr) :
    ∃ f s₂, Served s s₂ pd r.vaddr f ∧ serve pd rs s₂ = some s' := by
  obtain ⟨page, s₁, s₂, h1, h2, hlater⟩ := serve_cons hs
  obtain ⟨f, h⟩ := getPage_serves hw hpd hr h1 (page_of_served hw hpd hr h1 h2 hlater hm) h2
  exact ⟨f, s₂, h, hlater⟩

theorem Served.subset (h : Served s s' pd v f) : freeFrames s'.frames ⊆ freeFrames s.frames := by
  rcases h.frames with ⟨-, -, he⟩ | ⟨-, -, he⟩
  · exact he.subset
  · exact he.subset.trans Set.sdiff_subset

structure AllServed (s s' : VmState) (pd : Nat) (vs : List Nat) : Prop where
  world : World s'
  directory : pd ∈ s'.directories
  kept : ∀ u < wordSize, (∀ v ∈ vs, u / frameSize ≠ v / frameSize) → frameAt s' pd u = frameAt s pd u
  pages : ∀ v ∈ vs, ∃ f, frameAt s' pd v = some f ∧
    (frameAt s pd v = some f ∧ f ≠ 0 ∨
      (∀ g, frameAt s pd v = some g → g = 0) ∧
        f ∈ freeFrames s.frames ∧ f ∉ freeFrames s'.frames)
  frames : freeFrames s'.frames ⊆ freeFrames s.frames

def addrs (rs : List PageRequest) : List Nat := rs.map PageRequest.vaddr

theorem addrs_cons : addrs (r :: rs) = r.vaddr :: addrs rs := rfl

theorem serve_all (hw : World s) (hpd : pd ∈ s.directories) (hlt : ∀ v ∈ addrs rs, v < wordSize)
    (hapart : (addrs rs).Pairwise fun u v => u / frameSize ≠ v / frameSize)
    (hs : serve pd rs s = some s') (hm : ∀ v ∈ addrs rs, Maps s' pd v) :
    AllServed s s' pd (addrs rs) := by
  induction rs generalizing s with
  | nil =>
    cases hs
    exact ⟨hw, hpd, fun _ _ _ => rfl, fun v hv => absurd hv List.not_mem_nil, subset_rfl⟩
  | cons r rs ih =>
    rw [addrs_cons] at *
    obtain ⟨hhead, hapart⟩ := List.pairwise_cons.mp hapart
    have hr := hlt r.vaddr List.mem_cons_self
    have hrest := fun v hv => hlt v (List.mem_cons_of_mem r.vaddr hv)
    obtain ⟨f, s₂, hf, hlater⟩ := serve_first hw hpd hr hs (hm r.vaddr List.mem_cons_self)
    have h := ih hf.world hf.directory hrest hapart hlater
      fun v hv => hm v (List.mem_cons_of_mem r.vaddr hv)
    refine ⟨h.world, h.directory, fun u hu hne => ?_, fun v hv => ?_, h.frames.trans hf.subset⟩
    · rw [h.kept u hu fun v hv => hne v (List.mem_cons_of_mem r.vaddr hv)]
      exact hf.kept u hu (hne r.vaddr List.mem_cons_self)
    · rcases List.mem_cons.mp hv with rfl | hv
      · refine ⟨f, (h.kept _ hr hhead).trans hf.page, ?_⟩
        rcases hf.frames with ⟨hsame, hne, -⟩ | ⟨hnone, hleast, hfree⟩
        · exact .inl ⟨hsame, hne⟩
        · refine .inr ⟨hnone, hleast.1, fun hstill => ?_⟩
          have : f ∈ freeFrames s.frames \ {f} := hfree ▸ h.frames hstill
          exact this.2 rfl
      · have hother := hf.kept v (hrest v hv) fun he => hhead v hv he.symm
        obtain ⟨g, hg, hcase⟩ := h.pages v hv
        rw [hother] at hcase
        refine ⟨g, hg, hcase.imp_right ?_⟩
        rintro ⟨hnone, hfree, hgone⟩
        exact ⟨hnone, hf.subset hfree, hgone⟩

-- ---------------------------------------------------------------------------
-- Pages that can be written
-- ---------------------------------------------------------------------------

/-- The directory maps the address, and the entry of the page allows writing. -/
def RwPage (s : VmState) (pd v : Nat) : Prop :=
  Maps s pd v ∧ anyOf (s.entry (slotAt s pd v)) pageRw = true

theorem slotAt_same_page {w : Nat} (h : v / frameSize = w / frameSize) :
    slotAt s pd v = slotAt s pd w := by
  have hpage := page_eq (v := v)
  have hpage' := page_eq (v := w)
  have hlt : ptIndex v < 1024 := ptIndex_lt
  have hlt' : ptIndex w < 1024 := ptIndex_lt
  have hi : pdIndex v = pdIndex w := by omega
  have hj : ptIndex v = ptIndex w := by omega
  rw [slotAt, slotAt, hi, hj]

theorem RwPage.same_page {w : Nat} (hp : RwPage s pd w) (h : v / frameSize = w / frameSize) :
    RwPage s pd v := by
  rw [RwPage, Maps, frameAt_same_page h, slotAt_same_page h]
  exact hp

theorem RwPage.allocFrame (h : RwPage s d v) (hl : s.frames.Layout)
    (ha : allocFrame p kernel true s = some s') : RwPage s' d v := by
  refine ⟨h.1.allocFrame hl ha, ?_⟩
  rcases allocFrame_cases hl ha with ⟨-, rfl⟩ | ⟨-, f, frames, -, -, -, -, rfl⟩
  · exact h.2
  · show anyOf (VmState.entry _ (slotAt s d v)) pageRw = true
    by_cases he : slotAt s d v = p
    · rw [he, entry_setEntry_self]
      exact frameEntry_rw f kernel
    · rw [entry_setEntry_ne he]
      exact h.2

theorem RwPage.getPage (h : RwPage s d v) (hw : World s) (hd : d ∈ s.directories) (hv : v < wordSize)
    (hg : getPage vaddr pd true s = some (p, s')) : RwPage s' d v := by
  refine ⟨h.1.getPage hw hd hv hg, ?_⟩
  have h0 := hw.maps_table hd hv h.1
  obtain ⟨-, ⟨_, _, rfl⟩ | ⟨t, -, ha⟩⟩ := hw.sound.getPage hg
  · exact h.2
  · have hne : (slotAt s d v).table ≠ t := fun he => ha.fresh (he ▸ hw.table h0)
    have hsame : slotAt s' d v = slotAt s d v := by
      rw [slotAt, ha.table, if_neg]
      · rfl
      · rintro ⟨rfl, hi⟩
        rw [← hi] at ha
        exact h0 ha.absent
    rw [hsame, ha.pte, if_neg hne]
    exact h.2

theorem RwPage.serve (h : RwPage s d v) (hw : World s) (hd : d ∈ s.directories) (hv : v < wordSize)
    (hrw : ∀ r ∈ rs, r.writable = true) (hs : serve pd rs s = some s') : RwPage s' d v := by
  induction rs generalizing s with
  | nil =>
    cases hs
    exact h
  | cons r rs ih =>
    obtain ⟨page, s₁, s₂, h1, h2, hlater⟩ := serve_cons hs
    have hw1 := hw.getPage h1
    rw [hrw r List.mem_cons_self] at h2
    refine ih ((h.getPage hw hd hv h1).allocFrame hw1.owned.layout h2) (hw1.allocFrame h2) ?_
      (fun r' hr' => hrw r' (List.mem_cons_of_mem r hr')) hlater
    rwa [(allocFrame_kept h2).directories, (getPage_kept h1).1.directories]

theorem rwPage_of_page (hw : World s) (hpd : pd ∈ s.directories) (hv : v < wordSize)
    (hnone : frameAt s pd v = none) (hg : getPage v pd true s = some (p, s₁)) (hp : p ≠ .null)
    (ha : allocFrame p kernel true s₁ = some s') : RwPage s' pd v := by
  refine ⟨maps_of_page hw hpd hv hg hp ha, ?_⟩
  have hw1 := hw.getPage hg
  have hnone₁ := (hw.frameAt_getPage hpd hg hv).trans hnone
  rw [← (getPage_kept hg).1.directories] at hpd
  obtain ⟨h0, rfl⟩ := getPage_slot hg hp
  rcases allocFrame_cases hw1.owned.layout ha with ⟨hpfn, rfl⟩ | ⟨-, f, frames, -, -, -, -, rfl⟩
  · have hpde := (hw1.pdes _ hpd _ (pdIndex_lt hv)).present.mpr h0
    have hpte := hw1.entries _ hpd _ (pdIndex_lt hv) h0 _ ptIndex_lt hpfn
    rw [frameAt_eq_some.mpr ⟨hpde, hpte, rfl⟩] at hnone₁
    cases hnone₁
  · show anyOf (VmState.entry _ (slotAt s₁ pd v)) pageRw = true
    rw [entry_setEntry_self]
    exact frameEntry_rw f kernel

theorem serve_rw (hw : World s) (hpd : pd ∈ s.directories) (hlt : ∀ v ∈ addrs rs, v < wordSize)
    (hapart : (addrs rs).Pairwise fun u v => u / frameSize ≠ v / frameSize)
    (hrw : ∀ r ∈ rs, r.writable = true) (hs : serve pd rs s = some s')
    (hm : ∀ v ∈ addrs rs, Maps s' pd v) :
    ∀ v ∈ addrs rs, frameAt s pd v = none → RwPage s' pd v := by
  induction rs generalizing s with
  | nil => exact fun v hv => absurd hv List.not_mem_nil
  | cons r rs ih =>
    rw [addrs_cons] at *
    obtain ⟨hhead, hapart⟩ := List.pairwise_cons.mp hapart
    have hr := hlt r.vaddr List.mem_cons_self
    have hrest := fun v hv => hlt v (List.mem_cons_of_mem r.vaddr hv)
    have hrwrest := fun r' h => hrw r' (List.mem_cons_of_mem r h)
    obtain ⟨page, s₁, s₂, h1, h2, hlater⟩ := serve_cons hs
    have hpage := page_of_served hw hpd hr h1 h2 hlater (hm r.vaddr List.mem_cons_self)
    obtain ⟨f, hf⟩ := getPage_serves hw hpd hr h1 hpage h2
    intro v hv hnone
    rcases List.mem_cons.mp hv with rfl | hv
    · rw [hrw r List.mem_cons_self] at h2
      exact (rwPage_of_page hw hpd hr hnone h1 hpage h2).serve hf.world hf.directory hr hrwrest hlater
    · refine ih hf.world hf.directory hrest hapart hrwrest hlater
        (fun u hu => hm u (List.mem_cons_of_mem r.vaddr hu)) v hv ?_
      rw [hf.kept v (hrest v hv) fun he => hhead v hv he.symm]
      exact hnone

-- ---------------------------------------------------------------------------
-- After the boot
-- ---------------------------------------------------------------------------

theorem SmallBoot.kheap_mapped {k : Vm.KHeap.KState} {first n : Nat} (hb : SmallBoot k first n s)
    (hd : d ∈ s.directories) (hlo : Vm.KHeap.kheapStart ≤ v) (hhi : v < Vm.KHeap.kheapEnd) :
    Maps s d v := by
  have hw := hb.boots.world
  have hlt : v < wordSize := hhi.trans (by decide)
  have hpage : v / frameSize = v / frameSize * frameSize / frameSize := by
    rw [Nat.mul_div_cancel _ (by decide)]
  have hin : Vm.KHeap.kheapStart ≤ v / frameSize * frameSize ∧
      v / frameSize * frameSize + Vm.pageSize ≤ Vm.KHeap.kheapEnd := by
    simp only [frameSize, Vm.pageSize, Vm.KHeap.kheapStart, Vm.KHeap.kheapEnd,
      Vm.KHeap.kheapInitialSize] at *
    omega
  obtain ⟨f, -, -, hf⟩ := hb.boots.walked.heap_page hin.1 hin.2 (Nat.dvd_mul_left _ _)
  rw [← frameAt_same_page hpage] at hf
  have hkernel : Maps s s.kernelPd v := Option.isSome_iff_exists.mpr ⟨f, hf⟩
  -- the directories have the same table
  have hslot : slotAt s d v = slotAt s s.kernelPd v := by
    rw [slotAt, slotAt, hb.tables d hd _ (pdIndex_lt hlt),
      hb.tables _ hw.kernelDirectory _ (pdIndex_lt hlt)]
  have h0 := hw.maps_table hw.kernelDirectory hlt hkernel
  refine maps_iff.mpr ⟨(hw.pdes _ hd _ (pdIndex_lt hlt)).present.mpr ?_, ?_⟩
  · exact fun he => h0 ((congrArg Slot.table hslot).symm.trans he)
  · rw [hslot]
    exact (maps_iff.mp hkernel).2

/-- `get_page` fails where a table is missing and there is no memory for one. -/
theorem getPage_starved {k k' : Vm.KHeap.KState} (hk : s.kheap = some k)
    (hi : Vm.KHeap.ikmalloc pageTableSize true k = some (0, k'))
    (h0 : (s.pageDirectories pd).tables (pdIndex vaddr) = 0) :
    ∃ s₁, getPage vaddr pd true s = some (.null, s₁) := by
  rw [getPage, if_pos h0]
  simp only [↓reduceIte, ikmalloc_heap hk hi, Option.bind_eq_bind, Option.bind_some]
  exact ⟨_, rfl⟩

end

end Shigure.Paging
