import Shigure.Paging.Private
import Shigure.Process.Runs

/-!
# The memory of processes

`fork` copies every private page of the parent for the child. From then on each of the
two sees what was there and what it has stored itself, in every order of forks, timer
ticks and stores.
-/

namespace Shigure.Process

open Paging
open Pm (frameSize freeFrames)

structure Written where
  proc : Nat
  vaddr : Nat
  value : BitVec 8

/-- The processes, and what they have stored, the latest last. -/
structure Running where
  k : ProcState
  log : List Written

inductive Act
  | fork (r : Regs)
  | tick (r : Regs)
  | store (vaddr : Nat) (value : BitVec 8)

def Act.step (m : Running) : Act → Option Running
  | .fork r => (Process.fork r m.k).map fun x => { m with k := x.2 }
  | .tick r => some { m with k := (switchProc r m.k).2 }
  | .store vaddr value => some
      { k := { m.k with vm := storeByte m.k.vm m.k.vm.currentPd vaddr value }
        log := m.log ++ [⟨m.k.currentProc, vaddr, value⟩] }

/-- `fork` gets memory for the page tables, and a process stores into its own pages. -/
def Act.Legal (m : Running) : Act → Prop
  | .fork r => textStart ≤ r.eip ∧ ∀ x, Process.fork r m.k = some x → 0 ∉ x.2.vm.objects
  | .tick r => textStart ≤ r.eip
  | .store vaddr _ => vaddr < wordSize ∧ ¬ Shared m.k.vm m.k.vm.currentPd vaddr

/-- What a page holds after all that its process has stored there. -/
def replay (p page : Nat) (bytes : Nat → BitVec 8) (log : List Written) : Nat → BitVec 8 :=
  log.foldl (fun bytes w => if w.proc = p ∧ w.vaddr / frameSize = page then
    fun j => if j = w.vaddr % frameSize then w.value else bytes j else bytes) bytes

structure Memories (k : ProcState) : Prop extends Spaces k.vm where
  ready : ∃ c, Ready k c
  home : ∀ p ∈ k.created, (k.procs p).pd ∈ k.vm.directories
  apart : ∀ p ∈ k.created, ∀ q ∈ k.created, (k.procs p).pd = (k.procs q).pd → p = q

/-- The page of `v` is private to the process, and shows what the process has stored. -/
structure Sees (m : Running) (p v f : Nat) (bytes : Nat → BitVec 8) : Prop where
  mem : p ∈ m.k.created
  page : Private m.k.vm (m.k.procs p).pd v f
  holds : Holds m.k.vm f ⟨m.k.vm.currentPd, replay p (v / frameSize) bytes m.log⟩

section
variable {k k' k₀ : ProcState} {m m' : Running} {a : Act} {c c' p q v f pd newProc : Nat} {r : Regs}
variable {pid : Int} {bytes : Nat → BitVec 8} {log : List Written} {w : Written}

@[simp] theorem replay_nil : replay p q bytes [] = bytes := rfl

theorem replay_concat (page : Nat) : replay p page bytes (log ++ [w]) =
    if w.proc = p ∧ w.vaddr / frameSize = page then
      fun j => if j = w.vaddr % frameSize then w.value else replay p page bytes log j
    else replay p page bytes log := by
  simp only [replay, List.foldl_append, List.foldl_cons, List.foldl_nil]

-- ---------------------------------------------------------------------------
-- `fork`
-- ---------------------------------------------------------------------------

theorem enqueue_vm (h : enqueue newProc pd k = some k') : k'.vm = k.vm := by
  obtain ⟨last, -, h⟩ := Option.bind_eq_some_iff.mp h
  cases h
  rfl

structure ForkedMemory (k k' : ProcState) (pid : Int) (newProc pd : Nat) : Prop where
  clone : ∃ s₁ pa, clonePageDirectory (k.procs k.currentProc).pd k.vm = some (pd, s₁) ∧
    ikmalloc procSize false s₁ = some (newProc, pa, k'.vm)
  id : (k'.procs newProc).id = pid

theorem Forked.memory (h : Forked k k' r newProc pd c') (hf : fork r k = some (pid, k')) :
    ForkedMemory k k' pid newProc pd := by
  have hstores := h.stores
  obtain ⟨⟨pd', s₁⟩, h1, hf⟩ := Option.bind_eq_some_iff.mp hf
  obtain ⟨⟨newProc', pa, s₂⟩, h2, hf⟩ := Option.bind_eq_some_iff.mp hf
  obtain ⟨k₁, h3, hf⟩ := Option.bind_eq_some_iff.mp hf
  cases hf
  obtain ⟨hstore, -⟩ := List.cons.inj hstores
  simp only [Store.forked.injEq, Context.mk.injEq] at hstore
  obtain ⟨rfl, -, -, -, rfl⟩ := hstore
  have hvm : k₁.vm = s₂ := enqueue_vm h3
  exact ⟨⟨s₁, pa, h1, hvm ▸ h2⟩, rfl⟩

theorem ikmalloc_objects {size a : Nat} {al : Bool} {pa : BitVec 32} {s s' : VmState}
    (h : ikmalloc size al s = some (a, pa, s')) : s'.objects = s.objects := by
  obtain ⟨_, _, _, _, rfl⟩ := ikmalloc_same h
  rfl

/-- The two calls of the paging code that `fork` makes. -/
theorem Memories.fork_calls (h : Memories k) (hm : ForkedMemory k k' pid newProc pd)
    (h0 : 0 ∉ k'.vm.objects) : ∃ s₁,
      clonePageDirectory (k.procs k.currentProc).pd k.vm = some (pd, s₁) ∧
      MemoryCall.step k.vm (.clonePageDirectory (k.procs k.currentProc).pd) = some s₁ ∧
      MemoryCall.Succeeds k.vm (.clonePageDirectory (k.procs k.currentProc).pd) ∧
      MemoryCall.step s₁ (.kmalloc procSize) = some k'.vm ∧
      MemoryCall.Succeeds s₁ (.kmalloc procSize) := by
  obtain ⟨s₁, pa, hclone, hmalloc⟩ := hm.clone
  have hobj := ikmalloc_objects hmalloc
  have h1 : MemoryCall.step k.vm (.clonePageDirectory (k.procs k.currentProc).pd) = some s₁ := by
    rw [MemoryCall.step, hclone]
    rfl
  have h2 : MemoryCall.step s₁ (.kmalloc procSize) = some k'.vm := by
    rw [MemoryCall.step, hmalloc]
    rfl
  obtain ⟨c, hk⟩ := h.ready
  exact ⟨s₁, hclone, h1, ⟨h.home _ hk.current, MemoryCall.succeeds_of h1 (hobj ▸ h0)⟩, h2,
    (by decide : Vm.KHeap.NoWrap false procSize), MemoryCall.succeeds_of h2 h0⟩

theorem Memories.fork (h : Memories k) (hl : textStart ≤ r.eip) (hf : fork r k = some (pid, k'))
    (h0 : 0 ∉ k'.vm.objects) : Memories k' ∧ ∃ newProc pd, ForkedMemory k k' pid newProc pd ∧
      k'.currentProc = k.currentProc ∧ (k'.procs newProc).pd = pd ∧
      (∀ p ∈ k.created, (k'.procs p).pd = (k.procs p).pd) ∧
      (k'.created = k.created ∨ newProc ∉ k.created ∧ k'.created = k.created ++ [newProc]) := by
  obtain ⟨c, hk⟩ := h.ready
  have hcall : Call.step k (.fork r) = some k' := Option.map_eq_some_iff.mpr ⟨_, hf, rfl⟩
  obtain ⟨c₁, hready⟩ := hk.step (show Call.Legal k (.fork r) from hl) hcall
  obtain ⟨newProc, pd, c', hforked, hle, hcases⟩ := hk.fork hf
  have hm := hforked.memory hf
  obtain ⟨s₁, hclone, h1, hc1, h2, hc2⟩ := h.fork_calls hm h0
  have hs1 := h.toSpaces.step hc1 h1
  have hs2 := hs1.step hc2 h2
  have hd := clonePageDirectory_spec (h.source hc1.1) hclone (hc1.2 s₁ h1)
  have hdirs : k'.vm.directories = pd :: k.vm.directories := by
    obtain ⟨⟨a, pa, s₂⟩, hi, he⟩ := Option.map_eq_some_iff.mp h2
    obtain ⟨_, _, _, _, hsame⟩ := ikmalloc_same hi
    rw [← hd.directories, ← he, hsame]
  have hnew : (k'.procs newProc).pd = pd := by rw [hforked.new]
  have hold : ∀ p ∈ k.created, (k'.procs p).pd = (k.procs p).pd := fun p hp =>
    congrArg Context.pd (hforked.others p hp).2
  have hfresh : ∀ p ∈ k.created, (k.procs p).pd ≠ pd := by
    rintro p hp rfl
    exact hd.fresh (List.mem_append_right _ (h.home p hp))
  have hcreated : k'.created = k.created ∨
      newProc ∉ k.created ∧ k'.created = k.created ++ [newProc] := by
    rcases hcases with ⟨rfl, -⟩ | ⟨hlow, -, -⟩
    · exact .inl (hforked.created.trans (if_pos rfl))
    · have hstart := hk.heap.low
      have hnz : newProc ≠ 0 := by
        simp only [Vm.KHeap.kheapStart] at hstart
        omega
      refine .inr ⟨fun hin => ?_, hforked.created.trans (if_neg hnz)⟩
      have := (hk.home _ hin).2
      omega
  refine ⟨⟨hs2, ⟨c₁, hready⟩, fun p hp => ?_, fun p hp q hq he => ?_⟩, newProc, pd, hm,
    hforked.currentProc, hnew, hold, hcreated⟩
  · rw [hdirs]
    rcases hcreated with he | ⟨-, he⟩
    · rw [he] at hp
      rw [hold p hp]
      exact List.mem_cons_of_mem _ (h.home p hp)
    · rw [he] at hp
      rcases List.mem_append.mp hp with hp | hp
      · rw [hold p hp]
        exact List.mem_cons_of_mem _ (h.home p hp)
      · rw [List.mem_singleton.mp hp, hnew]
        exact List.mem_cons_self
  · rcases hcreated with hc | ⟨-, hc⟩
    · rw [hc] at hp hq
      rw [hold p hp, hold q hq] at he
      exact h.apart p hp q hq he
    · rw [hc] at hp hq
      rcases List.mem_append.mp hp with hp | hp <;> rcases List.mem_append.mp hq with hq | hq
      · rw [hold p hp, hold q hq] at he
        exact h.apart p hp q hq he
      · rw [hold p hp, List.mem_singleton.mp hq, hnew] at he
        exact absurd he (hfresh p hp)
      · rw [hold q hq, List.mem_singleton.mp hp, hnew] at he
        exact absurd he.symm (hfresh q hq)
      · rw [List.mem_singleton.mp hp, List.mem_singleton.mp hq]

theorem Sees.fork (hs : Sees ⟨k, log⟩ p v f bytes) (h : Memories k)
    (hm : ForkedMemory k k' pid newProc pd) (h0 : 0 ∉ k'.vm.objects) (hp : p ∈ k'.created)
    (hpd : (k'.procs p).pd = (k.procs p).pd) : Sees ⟨k', log⟩ p v f bytes := by
  obtain ⟨s₁, -, h1, hc1, h2, hc2⟩ := h.fork_calls hm h0
  have hs1 := h.toSpaces.step hc1 h1
  have hp1 := hs.page.step h.toSpaces hc1 (by rintro ⟨⟩) h1
  have hm1 := hs.holds.step h.toSpaces hs.page hc1 h1
  have hp2 := hp1.step hs1 hc2 (by rintro ⟨⟩) h2
  have hm2 := hm1.step hs1 hp1 hc2 h2
  exact ⟨hp, by rw [hpd]; exact hp2, rfl, hm2.bytes⟩

theorem Memories.child_sees (h : Memories k) (hm : ForkedMemory k k' pid newProc pd)
    (h0 : 0 ∉ k'.vm.objects) (hp : newProc ∈ k'.created) (hpd : (k'.procs newProc).pd = pd)
    (hpage : Private k.vm (k.procs k.currentProc).pd v f)
    (hbytes : ∀ j < frameSize, k.vm.phys (f * frameSize + j) = bytes j) :
    ∃ g, Sees ⟨k', []⟩ newProc v g bytes := by
  obtain ⟨s₁, hclone, h1, hc1, h2, hc2⟩ := h.fork_calls hm h0
  have hs1 := h.toSpaces.step hc1 h1
  have hsrc := h.source hc1.1
  have hd := clonePageDirectory_spec hsrc hclone (hc1.2 s₁ h1)
  cases hd.clonedAt hsrc (h.separate hc1.1) hpage.address with
  | shared hshared => exact absurd hshared hpage.own
  | empty _ _ hzero => exact absurd (hzero f hpage.frame) hpage.nonzero
  | copied _ hclone f' g _ hold hframe hfree _ hcopy =>
    obtain rfl : f' = f := Option.some.inj (hold.symm.trans hpage.frame)
    have hg : g ≠ 0 := by
      rintro rfl
      exact h.zero hfree
    have hin : pd ∈ s₁.directories := by
      rw [hd.directories]
      exact List.mem_cons_self
    have hp1 : Private s₁ pd v g := ⟨hin, hpage.address, hclone, hg, hframe⟩
    have hm1 : Holds s₁ g ⟨s₁.currentPd, bytes⟩ :=
      ⟨rfl, fun j hj => (hcopy j hj).trans (hbytes j hj)⟩
    have hp2 := hp1.step hs1 hc2 (by rintro ⟨⟩) h2
    have hm2 := hm1.step hs1 hp1 hc2 h2
    exact ⟨g, hp, by rw [hpd]; exact hp2, rfl, hm2.bytes⟩

-- ---------------------------------------------------------------------------
-- Ticks and stores
-- ---------------------------------------------------------------------------

theorem Memories.tick_cases (h : Memories k) (heip : textStart ≤ r.eip) : (switchProc r k).2 = k ∨
    ∃ next ∈ k.created, (switchProc r k).2.vm = switchPageDirectory (k.procs next).pd k.vm ∧
      (switchProc r k).2.created = k.created ∧
      ∀ p, ((switchProc r k).2.procs p).pd = (k.procs p).pd := by
  obtain ⟨c, hk⟩ := h.ready
  by_cases hne : (k.procs k.currentProc).next = 0
  · rw [switchProc_last hne]
    exact .inl rfl
  · rw [hk.switchProc_next heip hne]
    have hs := hk.switchTo (r := r) hne
    obtain ⟨hin, -⟩ := hk.next_mem hne
    refine .inr ⟨_, hs.currentProc ▸ hin, hs.vm, hs.created, fun p => ?_⟩
    by_cases hp : p = k.currentProc
    · rw [hp, hs.old]
    · rw [hs.others p hp]

theorem Memories.tick (h : Memories k) (heip : textStart ≤ r.eip) : Memories (switchProc r k).2 := by
  obtain ⟨c, hk⟩ := h.ready
  have hready := hk.tick heip
  rcases h.tick_cases heip with he | ⟨next, hnext, hvm, hcreated, hpd⟩
  · rw [he]
    exact h
  · have hs : Spaces (switchProc r k).2.vm := by
      rw [hvm]
      exact h.toSpaces.switch (h.home next hnext)
    refine ⟨hs, ⟨c, hready⟩, fun p hp => ?_, fun p hp q hq he => ?_⟩
    · rw [hcreated] at hp
      rw [hpd, hvm]
      exact h.home p hp
    · rw [hcreated] at hp hq
      rw [hpd, hpd] at he
      exact h.apart p hp q hq he

theorem Sees.tick (hs : Sees ⟨k, log⟩ p v f bytes) (h : Memories k) (heip : textStart ≤ r.eip) :
    Sees ⟨(switchProc r k).2, log⟩ p v f bytes := by
  rcases h.tick_cases heip with he | ⟨next, -, hvm, hcreated, hpd⟩
  · rw [he]
    exact hs
  · refine ⟨hcreated ▸ hs.mem, ?_, rfl, ?_⟩
    · rw [hpd, hvm]
      exact hs.page.congr hs.page.directory rfl rfl rfl (.inl rfl)
    · rw [hvm]
      exact hs.holds.bytes

theorem Memories.store (h : Memories k) (value : BitVec 8) :
    Memories { k with vm := storeByte k.vm k.vm.currentPd v value } := by
  obtain ⟨phys, he⟩ := storeByte_phys k.vm k.vm.currentPd v value
  obtain ⟨c, hk⟩ := h.ready
  rw [he]
  exact ⟨h.toSpaces.phys phys,
    ⟨c, hk.heap.congr rfl rfl, hk.queue, hk.home, hk.current, hk.pd, hk.ids, hk.pids, hk.stored, hk.eips,
      hk.switched⟩, h.home, h.apart⟩

theorem Sees.store (hs : Sees ⟨k, log⟩ p v f bytes) (h : Memories k) (hq : q < wordSize)
    (value : BitVec 8) :
    Sees ⟨{ k with vm := storeByte k.vm k.vm.currentPd q value }, log ++ [⟨k.currentProc, q, value⟩]⟩
      p v f bytes := by
  obtain ⟨c, hk⟩ := h.ready
  obtain ⟨phys, he⟩ := storeByte_phys k.vm k.vm.currentPd q value
  have hmem := hs.holds.store h.toSpaces hs.page hq value
  have hcurrent : k.currentProc = p ↔ k.vm.currentPd = (k.procs p).pd := by
    rw [hk.pd]
    exact ⟨fun he => by rw [he], fun he => h.apart _ hk.current p hs.mem he⟩
  refine ⟨hs.mem, ?_, rfl, fun j hj => ?_⟩
  · show Private (storeByte k.vm k.vm.currentPd q value) (k.procs p).pd v f
    rw [he]
    exact hs.page.phys phys
  · rw [replay_concat]
    refine (hmem.bytes j hj).trans ?_
    simp only [PageMemory.step, hcurrent]
    split
    · rfl
    · rfl

-- ---------------------------------------------------------------------------
-- Runs
-- ---------------------------------------------------------------------------

theorem Memories.step (h : Memories m.k) (hl : a.Legal m) (hs : a.step m = some m') : Memories m'.k := by
  cases a with
  | fork r =>
    obtain ⟨⟨pid, k'⟩, hf, rfl⟩ := Option.map_eq_some_iff.mp hs
    exact (h.fork hl.1 hf (hl.2 _ hf)).1
  | tick r =>
    obtain rfl := Option.some.inj hs
    exact h.tick hl
  | store vaddr value =>
    obtain rfl := Option.some.inj hs
    exact h.store value

theorem Sees.step (hv : Sees m p v f bytes) (h : Memories m.k) (hl : a.Legal m)
    (hs : a.step m = some m') : Sees m' p v f bytes := by
  cases a with
  | fork r =>
    obtain ⟨⟨pid, k'⟩, hf, rfl⟩ := Option.map_eq_some_iff.mp hs
    obtain ⟨-, newProc, pd, hm, -, -, hold, hcreated⟩ := h.fork hl.1 hf (hl.2 _ hf)
    refine hv.fork h hm (hl.2 _ hf) ?_ (hold p hv.mem)
    rcases hcreated with he | ⟨-, he⟩
    · rw [he]
      exact hv.mem
    · rw [he]
      exact List.mem_append_left _ hv.mem
  | tick r =>
    obtain rfl := Option.some.inj hs
    exact hv.tick h hl
  | store vaddr value =>
    obtain rfl := Option.some.inj hs
    exact hv.store h hl.1 value

theorem Sees.shows (h : Sees m p v f bytes) :
    Shows m.k.vm (m.k.procs p).pd v (replay p (v / frameSize) bytes m.log) :=
  (shows_iff h.page.frame).mpr h.holds.bytes

end

end Shigure.Process
