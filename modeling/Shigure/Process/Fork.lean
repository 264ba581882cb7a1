import Shigure.Process.Memory

/-!
# Forked processes have stacks of their own

`move_stack` gives the first process a private stack, and `fork` copies it. So all
processes have their stacks at the same addresses and in different frames, and after a
`fork` parent and child go on with the same bytes, each on its own.
-/

namespace Shigure.Process

open Paging
open Pm (frameSize freeFrames)
open Vm.KHeap (room kheapEnd)

section
variable {k k' k₀ : ProcState} {m m' : Running} {c p v w f i pd : Nat} {r : Regs} {s s' s₁ : VmState}
variable {pid : Int} {bytes : Nat → BitVec 8}

-- ---------------------------------------------------------------------------
-- The stack of the first process
-- ---------------------------------------------------------------------------

/-- The five pages that `move_stack` maps. -/
def OnStack (v : Nat) : Prop := 0xDFFFC000 ≤ v ∧ v < 0xE0001000

instance : Decidable (OnStack v) := inferInstanceAs (Decidable (_ ∧ _))

/-- The kernel has no tables where the stack is. -/
structure StackSpace (s : VmState) : Prop extends Spaces s where
  apart : s.kernelPd ≠ s.currentPd
  absent : ∀ i, i = 895 ∨ i = 896 → (s.pageDirectories s.kernelPd).tables i = 0

theorem stack_index (h : OnStack v) : pdIndex v = 895 ∨ pdIndex v = 896 := by
  obtain ⟨h1, h2⟩ := h
  simp only [pdIndex, Nat.shiftRight_eq_div_pow]
  omega

theorem StackSpace.phys (h : StackSpace s) (phys : Mem) : StackSpace { s with phys := phys } :=
  ⟨h.toSpaces.phys phys, h.apart, h.absent⟩

theorem Private.page (h : Private s pd v f) (hw : w < wordSize) (he : w / frameSize = v / frameSize) :
    Private s pd w f :=
  ⟨h.directory, hw, fun hs => h.own (shared_congr he.symm hs), h.nonzero, (frameAt_page he).trans h.frame⟩

theorem StackSpace.getPage {q : Slot} (h : StackSpace s) (hat : HeapAt s c)
    (hroom : c + room true pageTableSize ≤ kheapEnd) (hg : getPage i s.currentPd true s = some (q, s')) :
    StackSpace s' ∧ (s'.pageDirectories s'.currentPd).tables (pdIndex i) ≠ 0 ∧
      q = ⟨(s'.pageDirectories s'.currentPd).tables (pdIndex i), ptIndex i⟩ := by
  have hs := h.toSpaces.getPage hg
  rcases getPage_cases hg with ⟨h0, rfl, rfl⟩ | ⟨-, t, pa, s₂, hmalloc, hs'⟩
  · exact ⟨h, h0, findPage_of_table h0⟩
  · obtain ⟨c₂, -, -, -, -, hblock⟩ := hat.ikmalloc (by decide) hmalloc
    obtain ⟨hge, -, -⟩ := hblock.resolve_left (by omega)
    have ht : t ≠ 0 := by
      simp only [Vm.headerSize] at hge
      omega
    obtain ⟨-, rfl, rfl⟩ := hs'.resolve_left fun hz => ht hz.1
    obtain ⟨_, _, _, _, rfl⟩ := ikmalloc_same hmalloc
    have hnew := setPde_table (s := s) s.currentPd (pdIndex i) t s.currentPd (pdIndex i)
      (pa ||| pagePresent ||| pageRw)
    rw [if_pos ⟨rfl, rfl⟩] at hnew
    refine ⟨⟨hs, h.apart, fun j hj => ?_⟩, fun hz => ht (hnew.symm.trans hz),
      congrArg (Slot.mk · _) hnew.symm⟩
    exact ((setPde_table _ _ _ _ _ _).trans (if_neg fun he => h.apart he.1)).trans (h.absent j hj)

theorem StackSpace.allocFrame {q : Slot} {kernel writable : Bool} (h : StackSpace s)
    (ha : allocFrame q kernel writable s = some s') : StackSpace s' := by
  have hs := h.toSpaces.allocFrame ha
  obtain ⟨_, _, rfl⟩ := allocFrame_same ha
  exact ⟨hs, h.apart, h.absent⟩

/-- Frame 0 is not given to anybody. -/
theorem allocFrame_nonzero {q : Slot} {kernel writable : Bool} (h : Spaces s)
    (ha : Paging.allocFrame q kernel writable s = some s') : pteToPfn (s'.entry q) ≠ 0 := by
  rcases allocFrame_cases h.owned.layout ha with ⟨hne, rfl⟩ | ⟨-, g, frames, hleast, -, -, -, rfl⟩
  · exact hne
  · rw [entry_setEntry_self, pteToPfn_frameEntry (h.owned.lt hleast.1)]
    rintro rfl
    exact h.zero hleast.1

structure StackPage (i c : Nat) (s s' : VmState) : Prop where
  space : StackSpace s'
  heap : ∃ c', c' ≤ c + room true pageTableSize ∧ HeapAt s' c'
  current : s'.currentPd = s.currentPd
  page : ∃ f, Private s' s.currentPd i f
  others : ∀ v f, Private s s.currentPd v f → Private s' s.currentPd v f

theorem StackSpace.mapStackPage (h : StackSpace s) (hat : HeapAt s c)
    (hroom : c + room true pageTableSize ≤ kheapEnd) (hi : OnStack i)
    (hm : mapStackPage i s = some s') : StackPage i c s s' := by
  obtain ⟨c₁, -, hle, hat', hcurrent⟩ := HeapAt.mapStackPage hat hm
  obtain ⟨⟨q, s₁⟩, hg, ha⟩ := Option.bind_eq_some_iff.mp hm
  have hword : i < wordSize := hi.2.trans (by decide)
  obtain ⟨hs1, htable, rfl⟩ := h.getPage hat hroom hg
  have hs2 := hs1.allocFrame ha
  refine ⟨hs2, ⟨c₁, hle, hat'⟩, hcurrent, ?_, fun v f hp =>
    (hp.getPage h.toSpaces hg).allocFrame hs1.toSpaces ha⟩
  rw [← hcurrent]
  have hnonzero := allocFrame_nonzero hs1.toSpaces ha
  have hdirs : (s'.pageDirectories s'.currentPd) = s₁.pageDirectories s₁.currentPd := by
    obtain ⟨_, _, rfl⟩ := allocFrame_same ha
    rfl
  rw [← hdirs] at htable hnonzero
  have hpresent := (hs2.pdes _ hs2.current _ (pdIndex_lt hword)).present.mpr htable
  have hentry := hs2.entries _ hs2.current _ (pdIndex_lt hword) htable _ ptIndex_lt hnonzero
  refine ⟨_, hs2.current, hword, fun hsh => ?_, hnonzero, frameAt_eq_some.mpr ⟨hpresent, hentry, rfl⟩⟩
  rw [Shared, hs2.absent _ (stack_index hi)] at hsh
  exact hsh.1 hsh.2

def mapPages : List Nat → VmState → Option VmState
  | [], s => some s
  | i :: is, s => (mapStackPage i s).bind (mapPages is)

theorem StackSpace.mapPages {is : List Nat} (h : StackSpace s) (hat : HeapAt s c)
    (hroom : c + is.length * room true pageTableSize ≤ kheapEnd) (hi : ∀ i ∈ is, OnStack i)
    (hm : mapPages is s = some s') : StackSpace s' ∧ s'.currentPd = s.currentPd ∧
      (∀ v f, Private s s.currentPd v f → Private s' s.currentPd v f) ∧
      ∀ i ∈ is, ∃ f, Private s' s.currentPd i f := by
  induction is generalizing s c with
  | nil =>
    cases hm
    exact ⟨h, rfl, fun _ _ hp => hp, fun i hi => absurd hi List.not_mem_nil⟩
  | cons i is ih =>
    obtain ⟨s₁, h1, hm⟩ := Option.bind_eq_some_iff.mp hm
    rw [List.length_cons, Nat.succ_mul] at hroom
    have hp := h.mapStackPage hat (by omega) (hi i List.mem_cons_self) h1
    obtain ⟨c₁, hle, hat₁⟩ := hp.heap
    obtain ⟨hs', hcurrent, hkeep, hpages⟩ := ih hp.space hat₁ (by omega)
      (fun j hj => hi j (List.mem_cons_of_mem i hj)) hm
    rw [hp.current] at hcurrent hkeep hpages
    refine ⟨hs', hcurrent, fun v f hv => hkeep v f (hp.others v f hv), fun j hj => ?_⟩
    rcases List.mem_cons.mp hj with rfl | hj
    · obtain ⟨f, hf⟩ := hp.page
      exact ⟨f, hkeep j f hf⟩
    · exact hpages j hj

def mappedPages : List Nat := [0xE0000000, 0xDFFFF000, 0xDFFFE000, 0xDFFFD000, 0xDFFFC000]

theorem mappedPages_cover (h : OnStack v) : ∃ i ∈ mappedPages, v / frameSize = i / frameSize := by
  obtain ⟨h1, h2⟩ := h
  simp only [mappedPages, List.exists_mem_cons_iff, List.not_mem_nil, false_and, exists_false, or_false,
    frameSize]
  omega

def OwnStack (s : VmState) (pd : Nat) : Prop := ∀ v, OnStack v → ∃ f, Private s pd v f

theorem StackSpace.moveStack (h : StackSpace s) (hat : HeapAt s c)
    (hroom : c + 5 * room true pageTableSize ≤ kheapEnd) {initialEsp : Nat} {r' : Regs}
    (hm : moveStack 0xE0000000 0x4000 initialEsp r s = some (r', s')) :
    StackSpace s' ∧ OwnStack s' s'.currentPd := by
  obtain ⟨s₁, h1, phys, rfl⟩ := moveStack_some hm
  rw [mapStack_rounds] at h1
  obtain ⟨x₁, e1, h1⟩ := Option.bind_eq_some_iff.mp h1
  obtain ⟨x₂, e2, h1⟩ := Option.bind_eq_some_iff.mp h1
  obtain ⟨x₃, e3, h1⟩ := Option.bind_eq_some_iff.mp h1
  obtain ⟨x₄, e4, h1⟩ := Option.bind_eq_some_iff.mp h1
  obtain ⟨x₅, e5, h1⟩ := Option.bind_eq_some_iff.mp h1
  have hpages : Process.mapPages mappedPages s = some s₁ := by
    simp only [mappedPages, Process.mapPages, e1, e2, e3, e4, e5, Option.bind_some, h1]
  obtain ⟨hs, hcurrent, -, hown⟩ := h.mapPages hat
    (by rwa [show mappedPages.length = 5 from rfl]) (by simp [mappedPages, OnStack]) hpages
  refine ⟨hs.phys phys, fun v hv => ?_⟩
  obtain ⟨i, hi, he⟩ := mappedPages_cover hv
  obtain ⟨f, hf⟩ := hown i hi
  rw [← hcurrent] at hf
  exact ⟨f, (Private.page hf (hv.2.trans (by decide)) he).phys phys⟩

-- ---------------------------------------------------------------------------
-- Every process has its own stack
-- ---------------------------------------------------------------------------

theorem sees_now (hp : p ∈ k.created) (hpage : Private k.vm (k.procs p).pd v f) :
    Sees ⟨k, []⟩ p v f fun j => k.vm.phys (f * frameSize + j) := ⟨hp, hpage, rfl, fun _ _ => rfl⟩

structure Stacks (k : ProcState) : Prop extends Memories k where
  own : ∀ p ∈ k.created, OwnStack k.vm (k.procs p).pd

theorem Stacks.fork (h : Stacks k) (hl : textStart ≤ r.eip) (hf : fork r k = some (pid, k'))
    (h0 : 0 ∉ k'.vm.objects) : Stacks k' := by
  obtain ⟨hm', newProc, pd, hm, -, hpd, hold, hcreated⟩ := h.toMemories.fork hl hf h0
  obtain ⟨c, hk⟩ := h.ready
  have hparent : ∀ p ∈ k.created, p ∈ k'.created → OwnStack k'.vm (k'.procs p).pd := by
    intro p hp hp' v hv
    obtain ⟨f, hpage⟩ := h.own p hp v hv
    exact ⟨f, ((sees_now hp hpage).fork h.toMemories hm h0 hp' (hold p hp)).page⟩
  refine ⟨hm', fun p hp => ?_⟩
  rcases hcreated with he | ⟨-, he⟩
  · exact hparent p (he ▸ hp) hp
  · rw [he] at hp
    rcases List.mem_append.mp hp with hin | hin
    · exact hparent p hin (he ▸ hp)
    · obtain rfl := List.mem_singleton.mp hin
      intro v hv
      obtain ⟨f, hpage⟩ := h.own _ hk.current v hv
      obtain ⟨g, hsees⟩ := h.toMemories.child_sees hm h0 (he ▸ hp) hpd hpage fun _ _ => rfl
      exact ⟨g, hsees.page⟩

theorem Stacks.step {a : Act} (h : Stacks m.k) (hl : a.Legal m) (hs : a.step m = some m') :
    Stacks m'.k := by
  have hm := h.toMemories.step hl hs
  cases a with
  | fork r =>
    obtain ⟨⟨pid, k'⟩, hf, rfl⟩ := Option.map_eq_some_iff.mp hs
    exact h.fork hl.1 hf (hl.2 _ hf)
  | tick r =>
    obtain rfl := Option.some.inj hs
    refine ⟨hm, fun p hp v hv => ?_⟩
    have hin : p ∈ m.k.created := by
      rcases h.toMemories.tick_cases hl with he | ⟨_, -, -, he, -⟩
      · exact he ▸ hp
      · exact he ▸ hp
    obtain ⟨f, hpage⟩ := h.own p hin v hv
    exact ⟨f, ((sees_now hin hpage).tick h.toMemories hl).page⟩
  | store vaddr value =>
    obtain rfl := Option.some.inj hs
    refine ⟨hm, fun p hp v hv => ?_⟩
    obtain ⟨f, hpage⟩ := h.own p hp v hv
    have hsees : Sees ⟨m.k, []⟩ p v f _ := sees_now hp hpage
    exact ⟨f, (hsees.store h.toMemories hl.1 value).page⟩

end

end Shigure.Process
