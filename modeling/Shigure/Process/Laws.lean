import Shigure.Paging.Supply
import Shigure.Process.Queue

/-!
# The ready queue and the stored contexts

What `fork` and `switch_proc` keep: the queue is the list of the processes in the
order they were made, and a process that does not run has the context in its
`proc_t` that was stored for it last.
-/

namespace Shigure.Process

open Paging
open Vm (headerSize pageSize)
open Vm.KHeap (NoWrap kheapStart kheapEnd room)

-- ---------------------------------------------------------------------------
-- Contexts
-- ---------------------------------------------------------------------------

def Store.atFork (p : Nat) : Store → Option Context
  | .forked q c => if q = p then some c else none
  | .switchedOut _ _ => none

def Store.atSwitch (p : Nat) : Store → Option Context
  | .forked _ _ => none
  | .switchedOut q c => if q = p then some c else none

/-- The context of the last switch away from the process, or of its fork if there was
none. -/
def storedContext (p : Nat) (stores : List Store) : Option Context :=
  (stores.findSome? (Store.atSwitch p)).or (stores.findSome? (Store.atFork p))

section
variable {p q : Nat} {c : Context} {stores : List Store}

theorem storedContext_switchedOut : storedContext p (.switchedOut p c :: stores) = some c := by
  simp [storedContext, Store.atSwitch]

theorem storedContext_switchedOut_ne (h : q ≠ p) :
    storedContext p (.switchedOut q c :: stores) = storedContext p stores := by
  simp [storedContext, List.findSome?_cons, Store.atSwitch, Store.atFork, h]

theorem storedContext_forked (h : ∀ c', .switchedOut p c' ∉ stores) :
    storedContext p (.forked p c :: stores) = some c := by
  have hnone : stores.findSome? (Store.atSwitch p) = none := by
    rw [List.findSome?_eq_none_iff]
    intro x hx
    cases x with
    | forked => rfl
    | switchedOut q c' =>
      refine if_neg ?_
      rintro rfl
      exact h c' hx
  simp [storedContext, List.findSome?_cons, Store.atSwitch, Store.atFork, hnone]

theorem storedContext_forked_ne (h : q ≠ p) :
    storedContext p (.forked q c :: stores) = storedContext p stores := by
  simp [storedContext, List.findSome?_cons, Store.atSwitch, Store.atFork, h]

end

-- ---------------------------------------------------------------------------
-- The invariant
-- ---------------------------------------------------------------------------

/-- `linker.ld` puts the text of the kernel here. -/
def textStart : Nat := 0x100000

/-- `c` is where the free part of the heap begins. -/
structure Ready (k : ProcState) (c : Nat) : Prop where
  heap : HeapAt k.vm c
  queue : k.Queue k.readyQueue k.created
  home : ∀ p ∈ k.created, kheapStart ≤ p ∧ p < c
  current : k.currentProc ∈ k.created
  pd : k.vm.currentPd = (k.procs k.currentProc).pd
  ids : k.created.Pairwise fun p q => (k.procs p).id < (k.procs q).id
  -- as long as there is memory for a process, none has failed
  pids : kheapEnd < c + room false procSize ∨
    k.nextPid = k.created.length + 1 ∧ ∀ p ∈ k.created, (k.procs p).id < k.nextPid
  stored : ∀ p ∈ k.created, p ≠ k.currentProc → storedContext p k.stores = some (k.procs p).context
  eips : ∀ p ∈ k.created, p ≠ k.currentProc → textStart ≤ (k.procs p).eip
  switched : ∀ p x, .switchedOut p x ∈ k.stores → p ∈ k.created

section
variable {k k' : ProcState} {c c' p newProc pd : Nat} {r : Regs}

@[simp] theorem setProc_same (x : Proc) : (k.setProc p x).procs p = x := if_pos rfl

theorem setProc_other (x : Proc) {q : Nat} (h : q ≠ p) : (k.setProc p x).procs q = k.procs q :=
  if_neg h

theorem Ready.nonzero (h : Ready k c) (hp : p ∈ k.created) : p ≠ 0 := by
  have hlow := (h.home p hp).1
  simp only [kheapStart] at hlow
  omega

theorem Ready.few (h : Ready k c) : k.created.length ≤ kheapEnd - kheapStart := by
  have hhigh := h.heap.high
  have hsub : k.created ⊆ List.range' kheapStart (kheapEnd - kheapStart) := by
    intro p hp
    obtain ⟨h1, h2⟩ := h.home p hp
    refine List.mem_range'_1.mpr ⟨h1, ?_⟩
    have hle : kheapStart ≤ kheapEnd := by decide
    omega
  have hle := (h.queue.nodup.subperm hsub).length_le
  rwa [List.length_range'] at hle

theorem Ready.split (h : Ready k c) : ∃ l last, k.created = l ++ [last] :=
  (List.eq_nil_or_concat' k.created).resolve_left (List.ne_nil_of_mem h.current)

-- ---------------------------------------------------------------------------
-- `fork`
-- ---------------------------------------------------------------------------

/-- The same process, but for its place in the queue. -/
def SameProc (x y : Proc) : Prop := y.id = x.id ∧ y.context = x.context

theorem Ready.enqueue (h : Ready k c) (pd : Nat) (vm : VmState) (hnew : newProc ∉ k.created) :
    ∃ k', enqueue newProc pd { k with vm := vm } = some k' ∧ k'.vm = vm ∧
      k'.currentProc = k.currentProc ∧ k'.readyQueue = k.readyQueue ∧
      k'.nextPid = add32 k.nextPid 1 ∧ k'.created = k.created ∧ k'.stores = k.stores ∧
      (∀ p ∈ k.created, SameProc (k.procs p) (k'.procs p)) ∧
      k'.procs newProc = ⟨intOfWord k.nextPid, 0, 0, 0, pd, 0⟩ ∧
      k'.Queue k.readyQueue (if newProc = 0 then k.created else k.created ++ [newProc]) := by
  obtain ⟨l, last, hl⟩ := h.split
  have hqueue := h.queue
  have hfew := h.few
  rw [hl] at hqueue hfew
  obtain ⟨k₁, hk1⟩ : ∃ k₁, k₁ = { ({ k with vm := vm }).setProc newProc
    ⟨intOfWord k.nextPid, 0, 0, 0, pd, 0⟩ with nextPid := add32 k.nextPid 1 } := ⟨_, rfl⟩
  have hself : k₁.procs newProc = ⟨intOfWord k.nextPid, 0, 0, 0, pd, 0⟩ := by
    rw [hk1]
    exact if_pos rfl
  have hother : ∀ p ∈ l ++ [last], k₁.procs p = k.procs p := by
    intro p hp
    have hne : p ≠ newProc := by
      rintro rfl
      exact hnew (hl ▸ hp)
    rw [hk1]
    exact if_neg hne
  have hqueue₁ : k₁.Queue k.readyQueue (l ++ [last]) :=
    hqueue.congr fun p hp => congrArg Proc.next (hother p hp)
  have hlast : last ∈ l ++ [last] := List.mem_append_right _ List.mem_cons_self
  have hne : newProc ≠ last := by
    rintro rfl
    exact hnew (hl ▸ hlast)
  have hfuel : l.length < wordSize := by
    have hsize : kheapEnd - kheapStart < wordSize := by decide
    rw [List.length_append, List.length_singleton] at hfew
    omega
  have hwalk : lastNode 0 (fun p => (k₁.procs p).next) wordSize k₁.readyQueue = some last := by
    rw [show k₁.readyQueue = k.readyQueue by rw [hk1]; rfl]
    exact hqueue₁.lastNode hfuel
  have hset : ∀ p, p ≠ last → (k₁.setNext last newProc).procs p = k₁.procs p := fun p hp =>
    setProc_other _ hp
  refine ⟨k₁.setNext last newProc, ?_, by rw [hk1]; rfl, by rw [hk1]; rfl, by rw [hk1]; rfl,
    by rw [hk1]; rfl, by rw [hk1]; rfl, by rw [hk1]; rfl, ?_, ?_, ?_⟩
  · subst hk1
    exact Option.bind_eq_some_iff.mpr ⟨last, hwalk, rfl⟩
  · intro p hp
    rw [← hother p (hl ▸ hp)]
    by_cases he : p = last
    · subst he
      rw [ProcState.setNext, setProc_same]
      exact ⟨rfl, rfl⟩
    · rw [hset p he]
      exact ⟨rfl, rfl⟩
  · rw [hset newProc hne, hself]
  · have hlink : ((k₁.setNext last newProc).procs last).next = newProc := by
      rw [ProcState.setNext, setProc_same]
    have hsame : ∀ p ∈ l, ((k₁.setNext last newProc).procs p).next = (k₁.procs p).next := by
      intro p hp
      rw [hset p]
      rintro rfl
      exact (List.disjoint_of_nodup_append hqueue₁.nodup) hp List.mem_cons_self
    rw [hl]
    split
    · rename_i h0
      refine hqueue₁.congr fun p hp => ?_
      rcases List.mem_append.mp hp with hp | hp
      · exact hsame p hp
      · obtain rfl := List.mem_singleton.mp hp
        rw [hlink, h0]
        exact ((hqueue₁.next_null_iff hlast).mpr rfl).symm
    · rename_i h0
      rw [List.append_assoc]
      refine hqueue₁.concat hlink h0 ?_ hsame
      rw [hset newProc hne, hself]

structure Forked (k k' : ProcState) (r : Regs) (newProc pd c' : Nat) : Prop where
  heap : HeapAt k'.vm c'
  currentPd : k'.vm.currentPd = k.vm.currentPd
  currentProc : k'.currentProc = k.currentProc
  readyQueue : k'.readyQueue = k.readyQueue
  nextPid : k'.nextPid = add32 k.nextPid 1
  created : k'.created = if newProc = 0 then k.created else k.created ++ [newProc]
  stores : k'.stores = .forked newProc ⟨r.eip, r.esp, r.ebp, pd⟩ :: k.stores
  others : ∀ p ∈ k.created, SameProc (k.procs p) (k'.procs p)
  new : k'.procs newProc = ⟨intOfWord k.nextPid, r.esp, r.ebp, r.eip, pd, 0⟩
  queue : k'.Queue k'.readyQueue k'.created

theorem Ready.fork (h : Ready k c) {pid : Int} (hf : fork r k = some (pid, k')) :
    ∃ newProc pd c', Forked k k' r newProc pd c' ∧ c ≤ c' ∧
      (newProc = 0 ∧ kheapEnd < c' + room false procSize ∨
        c ≤ newProc ∧ newProc < c' ∧ c + room false procSize ≤ kheapEnd) := by
  rw [Process.fork] at hf
  obtain ⟨⟨pd, vm₁⟩, h1, hf⟩ := Option.bind_eq_some_iff.mp hf
  obtain ⟨⟨newProc, pa, vm₂⟩, h2, hf⟩ := Option.bind_eq_some_iff.mp hf
  obtain ⟨k₁, h3, hf⟩ := Option.bind_eq_some_iff.mp hf
  cases hf
  obtain ⟨c₁, hle₁, hat₁, hcurrent₁⟩ := h.heap.clonePageDirectory h1
  obtain ⟨c₂, hle₂, -, hat₂, hcurrent₂, hblock⟩ := hat₁.ikmalloc (by decide) h2
  have hnew : newProc ∉ k.created := by
    intro hin
    obtain ⟨hlow, hlt⟩ := h.home _ hin
    rcases hblock with ⟨rfl, -, -⟩ | ⟨hge, -, -⟩
    · exact absurd hlow (by decide)
    · omega
  obtain ⟨k₂, he, hvm, hcurrent, hready, hpid, hcreated, hstores, hsame, hself, hqueue⟩ :=
    h.enqueue pd vm₂ hnew
  rw [he] at h3
  cases h3
  have hothers : ∀ p ≠ newProc, (k₁.setRegs newProc r).procs p = k₁.procs p := fun p hp =>
    setProc_other _ hp
  have hnext : ∀ p, ((k₁.setRegs newProc r).procs p).next = (k₁.procs p).next := by
    intro p
    by_cases hp : p = newProc
    · subst hp
      rw [ProcState.setRegs, setProc_same]
    · rw [hothers p hp]
  refine ⟨newProc, pd, c₂, ⟨hvm ▸ hat₂, ?_, hcurrent, hready, hpid, ?_, ?_, ?_, ?_, ?_⟩, by omega, ?_⟩
  · rw [← hcurrent₁, ← hcurrent₂, ← hvm]
    rfl
  · rw [← hcreated]
    rfl
  · rw [← hstores]
    rfl
  · intro p hp
    show SameProc (k.procs p) ((k₁.setRegs newProc r).procs p)
    rw [hothers p fun he => hnew (he ▸ hp)]
    exact hsame p hp
  · show (k₁.setRegs newProc r).procs newProc = _
    rw [ProcState.setRegs, setProc_same, hself]
  · show Chain 0 _ k₁.readyQueue (if newProc = 0 then k₁.created else k₁.created ++ [newProc])
    rw [hcreated, hready]
    exact hqueue.congr fun p _ => hnext p
  · rcases hblock with ⟨h0, hfull, rfl⟩ | ⟨hge, hroom, rfl⟩
    · exact .inl ⟨h0, hfull⟩
    · exact .inr ⟨by omega, by simp only [procSize]; omega, by omega⟩

theorem Ready.fork_none (h : Ready k c) (hf : Forked k k' r 0 pd c') (hle : c ≤ c')
    (hfull : kheapEnd < c' + room false procSize) : Ready k' c' := by
  have hcreated : k'.created = k.created := hf.created
  refine ⟨hf.heap, hf.queue, fun p hp => ?_, ?_, ?_, ?_, .inl hfull, fun p hp hne => ?_,
    fun p hp hne => ?_, fun p x hx => ?_⟩
  all_goals rw [hcreated] at *
  · obtain ⟨h1, h2⟩ := h.home p hp
    exact ⟨h1, h2.trans_le hle⟩
  · rw [hf.currentProc]
    exact h.current
  · rw [hf.currentPd, hf.currentProc, h.pd]
    exact (congrArg Context.pd (hf.others _ h.current).2).symm
  · refine h.ids.imp_of_mem fun hp hq hlt => ?_
    rw [(hf.others _ hp).1, (hf.others _ hq).1]
    exact hlt
  · rw [hf.currentProc] at hne
    rw [hf.stores, storedContext_forked_ne (h.nonzero hp).symm, (hf.others p hp).2]
    exact h.stored p hp hne
  · rw [hf.currentProc] at hne
    rw [show (k'.procs p).eip = (k.procs p).eip from congrArg Context.eip (hf.others p hp).2]
    exact h.eips p hp hne
  · rw [hf.stores] at hx
    exact h.switched p x ((List.mem_cons.mp hx).resolve_left fun he => by cases he)

theorem Ready.fork_some (h : Ready k c) (hf : Forked k k' r newProc pd c') (hle : c ≤ c')
    (hlow : c ≤ newProc) (hhigh : newProc < c') (hroom : c + room false procSize ≤ kheapEnd)
    (heip : textStart ≤ r.eip) : Ready k' c' := by
  have hstart := h.heap.low
  have hnonzero : newProc ≠ 0 := by
    simp only [kheapStart] at hstart
    omega
  have hfresh : newProc ∉ k.created := fun hin => by
    have := (h.home _ hin).2
    omega
  have hcreated : k'.created = k.created ++ [newProc] := hf.created.trans (if_neg hnonzero)
  obtain ⟨hpid, hbelow⟩ := h.pids.resolve_left (by omega)
  have hfew := h.few
  have hsize : kheapEnd - kheapStart + 2 < 2 ^ 31 := by decide
  have hid : (k'.procs newProc).id = k.nextPid := by
    rw [hf.new, intOfWord, if_pos (by omega)]
  have hnext : k'.nextPid = k.nextPid + 1 := by
    rw [hf.nextPid, add32_eq (by simp only [wordSize]; omega)]
  refine ⟨hf.heap, hf.queue, fun p hp => ?_, ?_, ?_, ?_, .inr ⟨?_, fun p hp => ?_⟩,
    fun p hp hne => ?_, fun p hp hne => ?_, fun p x hx => ?_⟩
  all_goals rw [hcreated] at *
  · rcases List.mem_append.mp hp with hp | hp
    · obtain ⟨h1, h2⟩ := h.home p hp
      exact ⟨h1, h2.trans_le hle⟩
    · obtain rfl := List.mem_singleton.mp hp
      exact ⟨by omega, hhigh⟩
  · rw [hf.currentProc]
    exact List.mem_append_left _ h.current
  · rw [hf.currentPd, hf.currentProc, h.pd]
    exact (congrArg Context.pd (hf.others _ h.current).2).symm
  · refine List.pairwise_append.mpr ⟨?_, List.pairwise_singleton _ _, fun p hp q hq => ?_⟩
    · refine h.ids.imp_of_mem fun hp hq hlt => ?_
      rw [(hf.others _ hp).1, (hf.others _ hq).1]
      exact hlt
    · obtain rfl := List.mem_singleton.mp hq
      rw [(hf.others p hp).1, hid]
      exact hbelow p hp
  · rw [hnext, hpid, List.length_append, List.length_singleton]
  · rw [hnext]
    push_cast
    rcases List.mem_append.mp hp with hp | hp
    · rw [(hf.others p hp).1]
      have := hbelow p hp
      omega
    · obtain rfl := List.mem_singleton.mp hp
      rw [hid]
      omega
  · rw [hf.currentProc] at hne
    rw [hf.stores]
    rcases List.mem_append.mp hp with hp | hp
    · rw [storedContext_forked_ne (by rintro rfl; exact hfresh hp), (hf.others p hp).2]
      exact h.stored p hp hne
    · obtain rfl := List.mem_singleton.mp hp
      rw [storedContext_forked fun x hx => hfresh (h.switched _ x hx), hf.new]
      rfl
  · rw [hf.currentProc] at hne
    rcases List.mem_append.mp hp with hp | hp
    · rw [show (k'.procs p).eip = (k.procs p).eip from congrArg Context.eip (hf.others p hp).2]
      exact h.eips p hp hne
    · obtain rfl := List.mem_singleton.mp hp
      rw [hf.new]
      exact heip
  · rw [hf.stores] at hx
    exact List.mem_append_left _ (h.switched p x ((List.mem_cons.mp hx).resolve_left fun he => by cases he))

-- ---------------------------------------------------------------------------
-- `switch_proc`
-- ---------------------------------------------------------------------------

theorem textStart_ne (h : textStart ≤ r.eip) : r.eip ≠ 0xDEAD := by
  simp only [textStart] at h
  omega

theorem switchProc_last (h : (k.procs k.currentProc).next = 0) : switchProc r k = (none, k) := by
  by_cases h0 : k.currentProc = 0
  · rw [switchProc, if_pos h0]
  · rw [switchProc, if_neg h0, if_pos h]

theorem Ready.switchProc_next (h : Ready k c) (heip : textStart ≤ r.eip)
    (hne : (k.procs k.currentProc).next ≠ 0) :
    switchProc r k = (some (switchTo r k).1, (switchTo r k).2) := by
  rw [switchProc, if_neg (h.nonzero h.current), if_neg hne, if_neg (textStart_ne heip)]

theorem Ready.next_mem (h : Ready k c) (hne : (k.procs k.currentProc).next ≠ 0) :
    (k.procs k.currentProc).next ∈ k.created ∧
      (k.procs k.currentProc).next ≠ k.currentProc := by
  obtain ⟨l₁, l₂, hl⟩ := List.append_of_mem h.current
  have hqueue := h.queue
  have hnodup := h.queue.nodup
  rw [hl] at hqueue hnodup ⊢
  have hbehind := hqueue.behind
  cases l₂ with
  | nil => exact absurd hbehind hne
  | cons q l₂ =>
    have hq : (k.procs k.currentProc).next = q := hbehind.1
    rw [hq]
    refine ⟨by simp, fun he => ?_⟩
    obtain ⟨-, hnodup, -⟩ := List.nodup_append.mp hnodup
    rw [he] at hnodup
    exact (List.nodup_cons.mp hnodup).1 List.mem_cons_self

structure Switched (k k' : ProcState) (r : Regs) (args : PhysicalSwitch) : Prop where
  currentProc : k'.currentProc = (k.procs k.currentProc).next
  readyQueue : k'.readyQueue = k.readyQueue
  nextPid : k'.nextPid = k.nextPid
  created : k'.created = k.created
  stores : k'.stores = .switchedOut k.currentProc ⟨r.eip, r.esp, r.ebp, k.vm.currentPd⟩ :: k.stores
  vm : k'.vm = { k.vm with currentPd := (k.procs k'.currentProc).pd }
  old : k'.procs k.currentProc = { k.procs k.currentProc with eip := r.eip, esp := r.esp, ebp := r.ebp }
  others : ∀ p ≠ k.currentProc, k'.procs p = k.procs p
  args : args = ⟨(k.procs k'.currentProc).eip,
    (k.vm.pageDirectories (k.procs k'.currentProc).pd).paddrPde, (k.procs k'.currentProc).ebp,
    (k.procs k'.currentProc).esp⟩

theorem Ready.switchTo (h : Ready k c) (hne : (k.procs k.currentProc).next ≠ 0) :
    Switched k (switchTo r k).2 r (switchTo r k).1 := by
  have hold : (k.setRegs k.currentProc r).procs k.currentProc =
      { k.procs k.currentProc with eip := r.eip, esp := r.esp, ebp := r.ebp } := setProc_same _
  have hother : ∀ p ≠ k.currentProc, (k.setRegs k.currentProc r).procs p = k.procs p :=
    fun p hp => setProc_other _ hp
  have hnext : ((k.setRegs k.currentProc r).procs k.currentProc).next =
      (k.procs k.currentProc).next := by rw [hold]
  have hsame := hother _ (h.next_mem hne).2
  simp only [Process.switchTo, hnext, if_neg hne, hsame]
  exact ⟨rfl, rfl, rfl, rfl, rfl, rfl, hold, hother, rfl⟩

theorem Ready.after_switch (h : Ready k c) {args : PhysicalSwitch} (hs : Switched k k' r args)
    (heip : textStart ≤ r.eip) (hne : (k.procs k.currentProc).next ≠ 0) : Ready k' c := by
  have hnext := h.next_mem hne
  rw [← hs.currentProc] at hnext
  have hsame : ∀ p, (k'.procs p).id = (k.procs p).id ∧ (k'.procs p).next = (k.procs p).next ∧
      (k'.procs p).pd = (k.procs p).pd := by
    intro p
    by_cases hp : p = k.currentProc
    · subst hp
      rw [hs.old]
      exact ⟨rfl, rfl, rfl⟩
    · rw [hs.others p hp]
      exact ⟨rfl, rfl, rfl⟩
  refine ⟨?_, ?_, ?_, ?_, ?_, ?_, ?_, fun p hp hpne => ?_, fun p hp hpne => ?_, fun p x hx => ?_⟩
  all_goals try rw [hs.created] at *
  · rw [hs.vm]
    exact h.heap
  · rw [hs.readyQueue]
    exact h.queue.congr fun p _ => (hsame p).2.1
  · exact h.home
  · exact hnext.1
  · rw [hs.vm]
    exact (hsame _).2.2.symm
  · exact h.ids.imp fun hlt => by rwa [(hsame _).1, (hsame _).1]
  · rw [hs.nextPid]
    exact h.pids.imp_right fun hp => ⟨hp.1, fun p hin => by rw [(hsame p).1]; exact hp.2 p hin⟩
  · rw [hs.stores]
    by_cases hp' : p = k.currentProc
    · subst hp'
      rw [storedContext_switchedOut, hs.old, h.pd]
      rfl
    · rw [storedContext_switchedOut_ne (Ne.symm hp'), hs.others p hp']
      exact h.stored p hp hp'
  · by_cases hp' : p = k.currentProc
    · subst hp'
      rw [hs.old]
      exact heip
    · rw [hs.others p hp']
      exact h.eips p hp hp'
  · rw [hs.stores] at hx
    rcases List.mem_cons.mp hx with he | hx
    · cases he
      exact h.current
    · exact h.switched p x hx

end

end Shigure.Process
