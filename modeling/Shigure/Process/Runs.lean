import Shigure.Lib.Reach
import Shigure.Process.Laws

/-!
# Forks and timer ticks

Runs from `proc_initialize`, in any order of forks and ticks. Every process gets back
the context that was stored for it; but the last process of the queue never makes
room for the first.
-/

namespace Shigure.Process

open Paging
open Vm (headerSize pageSize)
open Vm.KHeap (NoWrap kheapStart kheapEnd room)

-- ---------------------------------------------------------------------------
-- The start
-- ---------------------------------------------------------------------------

section
variable {s s' s'' : VmState} {a b c : Nat}

theorem Spends.trans (h : Spends a c s s') (h' : ∀ c', HeapAt s' c' → Spends b c' s' s'') :
    Spends (a + b) c s s'' := by
  obtain ⟨c₁, hlo, hhi, hat, hcurrent⟩ := h
  obtain ⟨c₂, hlo', hhi', hat', hcurrent'⟩ := h' c₁ hat
  exact ⟨c₂, by omega, by omega, hat', hcurrent'.trans hcurrent⟩

theorem HeapAt.mapStackPage (h : HeapAt s c) {i : Nat} (hm : mapStackPage i s = some s') :
    Spends (room true pageTableSize) c s s' := by
  obtain ⟨⟨page, s₁⟩, h1, h2⟩ := Option.bind_eq_some_iff.mp hm
  obtain ⟨c₁, hlo, hhi, hat, hcurrent⟩ := HeapAt.getPage h h1
  obtain ⟨hat', hcurrent'⟩ := hat.allocFrame h2
  exact ⟨c₁, hlo, hhi, hat', hcurrent'.trans hcurrent⟩

theorem memcpy_same (dst src n : Nat) : ∃ phys, memcpy dst src n s = { s with phys := phys } := by
  induction n generalizing dst src s with
  | zero => exact ⟨_, rfl⟩
  | succ n ih =>
    obtain ⟨phys, hp⟩ := ih (s := { s with
      phys := s.phys.set (currentPhys dst s) (s.phys (currentPhys src s)) }) (add32 dst 1) (add32 src 1)
    exact ⟨phys, hp⟩

theorem mapStack_rounds : countDown pageSize (fun i => i ≥ sub32 0xE0000000 0x4000) mapStackPage
    loopFuel 0xE0000000 = fun s => (mapStackPage 0xE0000000 s).bind fun s =>
      (mapStackPage 0xDFFFF000 s).bind fun s => (mapStackPage 0xDFFFE000 s).bind fun s =>
      (mapStackPage 0xDFFFD000 s).bind fun s => (mapStackPage 0xDFFFC000 s).bind some := by
  rw [show loopFuel = 1048571 + 6 from rfl]
  rw [countDown_round (y := 0xDFFFF000) (by decide) (by decide),
    countDown_round (y := 0xDFFFE000) (by decide) (by decide),
    countDown_round (y := 0xDFFFD000) (by decide) (by decide),
    countDown_round (y := 0xDFFFC000) (by decide) (by decide),
    countDown_round (y := 0xDFFFB000) (by decide) (by decide),
    countDown_stop (by decide)]

def SameButPhys (s s' : VmState) : Prop := ∃ phys, s' = { s with phys := phys }

theorem remapWord_same {oldStackPtr initialEsp offset ptr : Nat}
    (h : remapWord oldStackPtr initialEsp offset ptr s = some s') : SameButPhys s s' := by
  rw [remapWord] at h
  split at h
  · cases h
    exact ⟨_, rfl⟩
  · cases h
    exact ⟨_, rfl⟩

/-- The pages are made first; the rest writes to memory only. -/
theorem moveStack_some {newStackStart size initialEsp : Nat} {r r' : Regs}
    (h : moveStack newStackStart size initialEsp r s = some (r', s')) :
    ∃ s₁, countDown pageSize (fun i => i ≥ sub32 newStackStart size) mapStackPage loopFuel
        newStackStart s = some s₁ ∧ SameButPhys s₁ s' := by
  obtain ⟨s₁, h1, h⟩ := Option.bind_eq_some_iff.mp h
  obtain ⟨s₂, h2, h⟩ := Option.bind_eq_some_iff.mp h
  cases h
  refine ⟨s₁, h1, countDown_keeps (SameButPhys s₁) (fun ptr x x' hx hb => ?_) ?_ h2⟩
  · obtain ⟨_, rfl⟩ := hx
    obtain ⟨phys, rfl⟩ := remapWord_same hb
    exact ⟨phys, rfl⟩
  · exact memcpy_same _ _ _

theorem HeapAt.moveStack (h : HeapAt s c) {initialEsp : Nat} {r r' : Regs}
    (hm : moveStack 0xE0000000 0x4000 initialEsp r s = some (r', s')) :
    Spends (5 * room true pageTableSize) c s s' := by
  obtain ⟨s₁, h1, phys, rfl⟩ := moveStack_some hm
  rw [mapStack_rounds] at h1
  obtain ⟨x₁, e1, h1⟩ := Option.bind_eq_some_iff.mp h1
  obtain ⟨x₂, e2, h1⟩ := Option.bind_eq_some_iff.mp h1
  obtain ⟨x₃, e3, h1⟩ := Option.bind_eq_some_iff.mp h1
  obtain ⟨x₄, e4, h1⟩ := Option.bind_eq_some_iff.mp h1
  obtain ⟨x₅, e5, h1⟩ := Option.bind_eq_some_iff.mp h1
  cases h1
  obtain ⟨c', hlo, hhi, hat, hcurrent⟩ := Spends.trans (Spends.trans (Spends.trans
    (Spends.trans (HeapAt.mapStackPage h e1) fun _ hx => HeapAt.mapStackPage hx e2)
    fun _ hx => HeapAt.mapStackPage hx e3) fun _ hx => HeapAt.mapStackPage hx e4)
    fun _ hx => HeapAt.mapStackPage hx e5
  exact ⟨c', hlo, by omega, hat, hcurrent⟩

theorem procInitialize_ready {n initrdEnd initialEsp : Nat} {s₀ : VmState} {procs : Nat → Proc}
    {r : Regs} {k : ProcState} (hb : Boots n initrdEnd s₀ s)
    (hi : procInitialize initialEsp r (.unstarted s procs) = some k) : ∃ c, Ready k c := by
  obtain ⟨⟨r', s₁⟩, h1, hi⟩ := Option.bind_eq_some_iff.mp hi
  obtain ⟨⟨p, pa, s₂⟩, h2, hi⟩ := Option.bind_eq_some_iff.mp hi
  cases hi
  obtain ⟨c₁, hlo₁, hhi₁, hat₁, -⟩ := HeapAt.moveStack hb.heapAt h1
  obtain ⟨c₂, -, -, hat₂, -, hblock⟩ := hat₁.ikmalloc (by decide) h2
  have hroom : 0xC0003004 + 5 * room true pageTableSize + room false procSize ≤ kheapEnd := by decide
  obtain ⟨hge, -, rfl⟩ := hblock.resolve_left (by omega)
  have hlow := hat₁.low
  have hself : ((ProcState.unstarted s procs).setProc p
      ⟨intOfWord 1, 0, 0, 0, s₂.currentPd, 0⟩).procs p = ⟨intOfWord 1, 0, 0, 0, s₂.currentPd, 0⟩ :=
    setProc_same _
  have hp : p ≠ 0 := by
    simp only [kheapStart] at hlow
    omega
  refine ⟨_, hat₂, ⟨rfl, hp, congrArg Proc.next hself⟩, fun q hq => ?_, List.mem_singleton_self p,
    (congrArg Proc.pd hself).symm, List.pairwise_singleton _ _, .inr ⟨rfl, fun q hq => ?_⟩,
    fun q hq hne => absurd (List.mem_singleton.mp hq) hne,
    fun q hq hne => absurd (List.mem_singleton.mp hq) hne,
    fun _ _ hx => absurd hx List.not_mem_nil⟩
  · obtain rfl := List.mem_singleton.mp hq
    refine ⟨by omega, ?_⟩
    simp only [procSize]
    omega
  · obtain rfl := List.mem_singleton.mp hq
    show ((ProcState.setProc _ _ _).procs q).id < _
    rw [show (ProcState.unstarted s procs).nextPid = 1 from rfl, hself]
    exact (by decide : intOfWord 1 < (add32 1 1 : Nat))

-- ---------------------------------------------------------------------------
-- Runs
-- ---------------------------------------------------------------------------

inductive Call where
  | fork (r : Regs)
  | tick (r : Regs)

/-- `get_eip` returns an address of the kernel's text. -/
def Call.Legal (_ : ProcState) : Call → Prop
  | .fork r => textStart ≤ r.eip
  | .tick r => textStart ≤ r.eip

def Call.step (k : ProcState) : Call → Option ProcState
  | .fork r => (Process.fork r k).map Prod.snd
  | .tick r => some (switchProc r k).2

variable {k k₀ k' : ProcState} {call : Call}

theorem Ready.tick (h : Ready k c) {r : Regs} (heip : textStart ≤ r.eip) :
    Ready (switchProc r k).2 c := by
  by_cases hne : (k.procs k.currentProc).next = 0
  · rw [switchProc_last hne]
    exact h
  · rw [h.switchProc_next heip hne]
    exact h.after_switch (h.switchTo hne) heip hne

theorem Ready.step (h : Ready k c) (hl : Call.Legal k call) (hs : Call.step k call = some k') :
    ∃ c', Ready k' c' := by
  cases call with
  | fork r =>
    obtain ⟨⟨pid, x⟩, hf, rfl⟩ := Option.map_eq_some_iff.mp hs
    obtain ⟨newProc, pd, c', hf', hle, ⟨rfl, hfull⟩ | ⟨hlow, hhigh, hroom⟩⟩ := h.fork hf
    · exact ⟨c', h.fork_none hf' hle hfull⟩
    · exact ⟨c', h.fork_some hf' hle hlow hhigh hroom hl⟩
  | tick r =>
    cases hs
    exact ⟨c, h.tick hl⟩

/-- A kernel that has booted and runs its first process. -/
def Started (k₀ : ProcState) : Prop :=
  ∃ n initrdEnd s₀ s initialEsp r procs, Boots n initrdEnd s₀ s ∧
    procInitialize initialEsp r (.unstarted s procs) = some k₀

theorem ready_of_reach (h : Started k₀) (hr : Reach Call.Legal Call.step k₀ k) : ∃ c, Ready k c := by
  obtain ⟨n, initrdEnd, s₀, s, initialEsp, r, procs, hb, hi⟩ := h
  exact hr.invariant (fun k => ∃ c, Ready k c) (procInitialize_ready hb hi)
    fun _ _ _ ⟨_, hk⟩ hl hs => hk.step hl hs

/-- The queue holds the processes in the order they were made, `current_pd` is that of
the process that runs, and a process is resumed with what was stored for it last. -/
theorem contexts_kept (h : Started k₀) (hr : Reach Call.Legal Call.step k₀ k) :
    k.Queue k.readyQueue k.created ∧ k.created.Nodup ∧
      (k.created.map fun p => (k.procs p).id).Pairwise (· < ·) ∧
      k.currentProc ∈ k.created ∧ k.vm.currentPd = (k.procs k.currentProc).pd ∧
      ∀ r args k', textStart ≤ r.eip → switchProc r k = (some args, k') →
        ∃ c, storedContext k'.currentProc k'.stores = some c ∧ c.eip ≠ 0 ∧
          k'.vm.currentPd = c.pd ∧
          args = ⟨c.eip, (k'.vm.pageDirectories c.pd).paddrPde, c.ebp, c.esp⟩ := by
  obtain ⟨c, hk⟩ := ready_of_reach h hr
  refine ⟨hk.queue, hk.queue.nodup, List.pairwise_map.mpr hk.ids, hk.current, hk.pd, ?_⟩
  intro r args k' heip hs
  have hne : (k.procs k.currentProc).next ≠ 0 := by
    intro h0
    rw [switchProc_last h0] at hs
    cases hs
  rw [hk.switchProc_next heip hne] at hs
  cases hs
  have hsw := hk.switchTo (r := r) hne
  obtain ⟨hin, hother⟩ := hk.next_mem hne
  rw [← hsw.currentProc] at hin hother
  refine ⟨(k.procs (switchTo r k).2.currentProc).context, ?_, ?_, ?_, ?_⟩
  · rw [hsw.stores, storedContext_switchedOut_ne hother.symm]
    exact hk.stored _ hin hother
  · have hle := hk.eips _ hin hother
    simp only [textStart] at hle
    simp only [Proc.context]
    omega
  · rw [hsw.vm]
    rfl
  · rw [hsw.vm]
    exact hsw.args

def visits : List Regs → ProcState → List Nat
  | [], _ => []
  | r :: rs, k => (switchProc r k).2.currentProc :: visits rs (switchProc r k).2

/-- Nobody makes room for the first process. -/
theorem Ready.first_not_next (h : Ready k c) {r : Regs} (heip : textStart ≤ r.eip)
    (hlen : 2 ≤ k.created.length) : (switchProc r k).2.currentProc ≠ k.readyQueue := by
  by_cases h0 : (k.procs k.currentProc).next = 0
  · -- the last process goes on, and it is not the first
    rw [switchProc_last h0]
    intro he
    have hone : k.Queue k.readyQueue [k.currentProc] :=
      ⟨he.symm, h.nonzero h.current, h0⟩
    rw [h.queue.unique hone, List.length_singleton] at hlen
    omega
  · rw [h.switchProc_next heip h0]
    exact fun he => h.queue.next_ne_first h.current ((h.switchTo h0).currentProc.symm.trans he)

theorem Ready.visits_first (h : Ready k c) (hlen : 2 ≤ k.created.length) {rs : List Regs}
    (hrs : ∀ r ∈ rs, textStart ≤ r.eip) : k.readyQueue ∉ visits rs k := by
  induction rs generalizing k with
  | nil => exact List.not_mem_nil
  | cons r rs ih =>
    have heip := hrs r List.mem_cons_self
    have hsame : (switchProc r k).2.readyQueue = k.readyQueue ∧
        (switchProc r k).2.created = k.created := by
      by_cases h0 : (k.procs k.currentProc).next = 0
      · rw [switchProc_last h0]
        exact ⟨rfl, rfl⟩
      · rw [h.switchProc_next heip h0]
        exact ⟨rfl, rfl⟩
    have htail := ih (h.tick heip) (hsame.2.symm ▸ hlen) fun q hq => hrs q (List.mem_cons_of_mem r hq)
    rw [hsame.1] at htail
    rw [visits, List.mem_cons]
    exact not_or.mpr ⟨(h.first_not_next heip hlen).symm, htail⟩

/-- A switch takes the next process around the queue unless the current one is the last:
that one is never left, so that no number of switches visits all. -/
theorem rotates_iff (h : Started k₀) (hr : Reach Call.Legal Call.step k₀ k) {l : List Nat}
    (hq : k.Queue k.readyQueue l) (hlen : 2 ≤ l.length) :
    ∃ hin : k.currentProc ∈ l,
      (∀ r, textStart ≤ r.eip → ((switchProc r k).2.currentProc = l.next k.currentProc hin ↔
        l.getLast? ≠ some k.currentProc)) ∧
      ∀ rs : List Regs, rs.length = l.length → (∀ r ∈ rs, textStart ≤ r.eip) →
        ¬ (visits rs k).Perm l := by
  obtain ⟨c, hk⟩ := ready_of_reach h hr
  obtain rfl : k.created = l := hk.queue.unique hq
  refine ⟨hk.current, fun r heip => ?_, fun rs _ hrs hperm => ?_⟩
  · obtain ⟨l, last, hl⟩ := hk.split
    have hlast : k.created.getLast? = some last := by rw [hl, List.getLast?_concat]
    have hnull : (k.procs k.currentProc).next = 0 ↔ k.currentProc = last := by
      have hqueue := hk.queue
      have hcurrent := hk.current
      rw [hl] at hqueue hcurrent
      exact hqueue.next_null_iff hcurrent
    rw [hlast, ne_eq, Option.some.injEq, eq_comm (a := last), ← hnull]
    constructor
    · intro he h0
      rw [hk.queue.next_last hk.current h0] at he
      exact hk.first_not_next heip hlen he
    · intro h0
      rw [hk.switchProc_next heip h0]
      exact (hk.switchTo h0).currentProc.trans (hk.queue.next_cyclic hk.current h0)
  · have hfirst : k.readyQueue ∈ k.created := by
      obtain ⟨p, l, hl⟩ := List.exists_cons_of_ne_nil (List.ne_nil_of_mem hk.current)
      have hqueue := hk.queue
      rw [hl] at hqueue ⊢
      rw [hqueue.1]
      exact List.mem_cons_self
    exact hk.visits_first hlen hrs (hperm.symm.subset hfirst)

-- ---------------------------------------------------------------------------
-- Two processes
-- ---------------------------------------------------------------------------

/-- The tables at 895 and 896, of the stack, are not those of the kernel. -/
structure Stacked (s : VmState) (c b m : Nat) : Prop where
  supplied : Supplied s c b m
  links : ∀ i < pdEntries, i ≠ 895 → i ≠ 896 → Links s s.currentPd i
  current : s.currentPd < c
  kernel : s.kernelPd < c
  apart : s.kernelPd ≠ s.currentPd

variable {m : Nat}

theorem Stacked.less (h : Stacked s c b m) {b' m' : Nat} (hb : b' ≤ b) (hm : m' ≤ m) :
    Stacked s c b' m' :=
  ⟨h.supplied.less hb hm, h.links, h.current, h.kernel, h.apart⟩

theorem Stacked.mapStackPage (h : Stacked s c (room true pageTableSize + b) (m + 1)) {i : Nat}
    (hi : pdIndex i = 895 ∨ pdIndex i = 896) :
    ∃ s' c', mapStackPage i s = some s' ∧ Stacked s' c' b m := by
  by_cases h0 : (s.pageDirectories s.currentPd).tables (pdIndex i) = 0
  · obtain ⟨t, pa, s₁, hm, hs, hlt⟩ := h.supplied.ikmalloc (by decide)
    obtain ⟨_, _, _, _, hs₁⟩ := ikmalloc_same hm
    obtain ⟨s₂, hs₂⟩ : ∃ s₂, s₂ = { s₁.setTable t fun _ => pageRw with made := t :: s₁.made }.setPde
      s.currentPd (pdIndex i) t (pa ||| pagePresent ||| pageRw) := ⟨_, rfl⟩
    have hget : getPage i s.currentPd true s = some (⟨t, ptIndex i⟩, s₂) := by
      rw [hs₂]
      exact getPage_new h0 hm (by omega)
    have hsup : Supplied s₂ (t + pageTableSize) b (m + 1) := by
      rw [hs₂]
      exact hs.congr rfl rfl rfl
    obtain ⟨s', ha, hs'⟩ := hsup.allocFrame ⟨t, ptIndex i⟩ false true
    obtain ⟨_, _, rfl⟩ := allocFrame_same ha
    have hcurrent : s₂.currentPd = s.currentPd := by rw [hs₂, hs₁]; rfl
    have hkernel : s₂.kernelPd = s.kernelPd := by rw [hs₂, hs₁]; rfl
    have hother : s₂.pageDirectories s.kernelPd = s.pageDirectories s.kernelPd := by
      rw [hs₂, hs₁]
      exact if_neg h.apart
    have htable : ∀ k ≠ pdIndex i, (s₂.pageDirectories s.currentPd).tables k =
        (s.pageDirectories s.currentPd).tables k := by
      intro k hk
      rw [hs₂, hs₁]
      refine (setPde_table _ _ _ _ _ _).trans ?_
      exact if_neg fun hx => hk hx.2
    refine ⟨_, _, ?_, hs', fun k hk h1 h2 => ?_, ?_, ?_, ?_⟩
    · rw [Process.mapStackPage, hget]
      exact ha
    · show Links s₂ s₂.currentPd k
      rw [Links, hcurrent, hkernel, hother, htable k (by omega)]
      exact h.links k hk h1 h2
    · exact hcurrent.trans_lt (h.current.trans (by omega))
    · exact hkernel.trans_lt (h.kernel.trans (by omega))
    · show s₂.kernelPd ≠ s₂.currentPd
      rw [hcurrent, hkernel]
      exact h.apart
  · obtain ⟨s', ha, hs'⟩ := h.supplied.allocFrame
      ⟨(s.pageDirectories s.currentPd).tables (pdIndex i), ptIndex i⟩ false true
    obtain ⟨_, _, rfl⟩ := allocFrame_same ha
    refine ⟨_, c, ?_, hs'.less (by omega) le_rfl, h.links, h.current, h.kernel, h.apart⟩
    rw [Process.mapStackPage, getPage_old h0]
    exact ha

theorem countDown_remap {oldStackPtr initialEsp offset limit fuel x : Nat} (hlim : 4 ≤ limit)
    (hx : x < wordSize) (hfuel : x < 4 * fuel) : ∃ s', countDown 4 (fun ptr => ptr > limit)
      (remapWord oldStackPtr initialEsp offset) fuel x s = some s' := by
  induction fuel generalizing x s with
  | zero => omega
  | succ fuel ih =>
    rw [countDown]
    split
    · rename_i hgt
      have hgt := of_decide_eq_true hgt
      obtain ⟨s₁, h1⟩ : ∃ s₁, remapWord oldStackPtr initialEsp offset x s = some s₁ := by
        rw [remapWord]
        split
        · exact ⟨_, rfl⟩
        · exact ⟨_, rfl⟩
      rw [h1, Option.bind_some, sub32_eq (by omega) hx]
      exact ih (by omega) (by omega)
    · exact ⟨s, rfl⟩

theorem copies_stacked (h : ∀ i < pdEntries, i ≠ 895 → i ≠ 896 → Links s a i) :
    copies s a (List.range pdEntries) ≤ 2 := by
  have hsub : (List.range pdEntries).filter (fun i => ¬ Links s a i) ⊆ [895, 896] := by
    intro i hi
    obtain ⟨hlt, hown⟩ := List.mem_filter.mp hi
    have hown : ¬ Links s a i := of_decide_eq_true hown
    by_contra hne
    rw [List.mem_cons, List.mem_singleton, not_or] at hne
    exact hown (h i (List.mem_range.mp hlt) hne.1 hne.2)
  rw [copies, List.countP_eq_length_filter]
  exact ((List.nodup_range.filter _).subperm hsub).length_le

theorem Stacked.moveStack (h : Stacked s c (5 * room true pageTableSize + b) (m + 5)) (r : Regs) :
    ∃ r' s' c', moveStack 0xE0000000 0x4000 0x1F0000 r s = some (r', s') ∧ Stacked s' c' b m := by
  have h5 : 5 * room true pageTableSize + b = room true pageTableSize + (room true pageTableSize +
    (room true pageTableSize + (room true pageTableSize + (room true pageTableSize + b)))) := by omega
  rw [h5] at h
  obtain ⟨x₁, c₁, e1, h1⟩ := h.mapStackPage (i := 0xE0000000) (by decide)
  obtain ⟨x₂, c₂, e2, h2⟩ := h1.mapStackPage (i := 0xDFFFF000) (by decide)
  obtain ⟨x₃, c₃, e3, h3⟩ := h2.mapStackPage (i := 0xDFFFE000) (by decide)
  obtain ⟨x₄, c₄, e4, h4⟩ := h3.mapStackPage (i := 0xDFFFD000) (by decide)
  obtain ⟨x₅, c₅, e5, h5⟩ := h4.mapStackPage (i := 0xDFFFC000) (by decide)
  have hpages : countDown pageSize (fun i => i ≥ sub32 0xE0000000 0x4000) Process.mapStackPage
      loopFuel 0xE0000000 s = some x₅ := by
    rw [mapStack_rounds]
    simp only [e1, e2, e3, e4, e5, Option.bind_some]
  obtain ⟨phys, hcopy⟩ := memcpy_same (s := x₅) (add32 r.esp (sub32 0xE0000000 0x1F0000)) r.esp
    (sub32 0x1F0000 r.esp)
  obtain ⟨y, hy⟩ : ∃ y, countDown 4 (fun ptr => ptr > sub32 0xE0000000 0x4000)
      (remapWord r.esp 0x1F0000 (sub32 0xE0000000 0x1F0000)) wordSize 0xE0000000
      { x₅ with phys := phys } = some y := countDown_remap (by decide) (by decide) (by decide)
  have hmove : Process.moveStack 0xE0000000 0x4000 0x1F0000 r s =
      some (⟨r.eip, add32 r.esp (sub32 0xE0000000 0x1F0000),
        add32 r.ebp (sub32 0xE0000000 0x1F0000)⟩, y) := by
    rw [Process.moveStack, hpages]
    simp only [Option.bind_eq_bind, Option.bind_some, hcopy, hy]
  refine ⟨_, y, c₅, hmove, ?_⟩
  obtain ⟨x, hx, phys', rfl⟩ := moveStack_some hmove
  rw [hpages] at hx
  cases hx
  exact ⟨h5.supplied.congr rfl rfl rfl, h5.links, h5.current, h5.kernel, h5.apart⟩

theorem SmallBoot.stacked {k : Vm.KHeap.KState} {first p : Nat} (h : SmallBoot k first p s) :
    Stacked s 0xC0003004 (kheapEnd - 0xC0003004) 30000 := by
  have hin : s.kernelPd ∈ s.directories := h.boots.world.kernelDirectory
  have hkernel := h.kernelPd
  refine ⟨⟨h.boots.heapAt, by decide, h.layout, h.frames_left⟩, fun i hi _ _ => .inr ?_, ?_,
    hkernel.trans (by decide), h.kernel_ne (by rw [h.currentPd]; decide)⟩
  · rw [h.tables _ h.current i hi, h.tables _ hin i hi]
  · rw [h.currentPd]
    decide

theorem Stacked.procInitialize (h : Stacked s c (5 * room true pageTableSize +
      (room false procSize + b)) (m + 5)) (r : Regs) (procs : Nat → Proc) :
    ∃ k c', procInitialize 0x1F0000 r (.unstarted s procs) = some k ∧ Stacked k.vm c' b m ∧
      k.created.length = 1 ∧ k.currentProc = k.readyQueue := by
  obtain ⟨r', s₁, c₁, hmove, hs₁⟩ := h.moveStack r
  obtain ⟨p, pa, s₂, hp, hs₂, hlt⟩ := hs₁.supplied.ikmalloc (by decide)
  obtain ⟨_, _, _, _, hsame⟩ := ikmalloc_same hp
  have hstacked : Stacked s₂ (p + procSize) b m := by
    rw [hsame] at hs₂ ⊢
    exact ⟨hs₂, hs₁.links, hs₁.current.trans (by omega), hs₁.kernel.trans (by omega), hs₁.apart⟩
  have hrun : Process.procInitialize 0x1F0000 r (.unstarted s procs) = some
      { (ProcState.unstarted s procs).setProc p ⟨intOfWord 1, 0, 0, 0, s₂.currentPd, 0⟩ with
        vm := s₂
        currentProc := p
        readyQueue := p
        nextPid := add32 1 1
        created := [p] } := by
    rw [Process.procInitialize, show (ProcState.unstarted s procs).vm = s from rfl, hmove]
    simp only [Option.bind_eq_bind, Option.bind_some, hp]
    rfl
  exact ⟨_, _, hrun, hstacked, rfl, rfl⟩

theorem Stacked.fork {k : ProcState} (hk : Ready k a) (h : Stacked k.vm c (room true pageDirectorySize +
      (2 * room true pageTableSize + (room false procSize + b))) (2 * ptEntries)) (r : Regs) :
    ∃ pid k' c', fork r k = some (pid, k') ∧ k'.created.length = k.created.length + 1 ∧
      Supplied k'.vm c' b 0 := by
  have hcopies := copies_stacked h.links
  have htables := Nat.mul_le_mul_right (room true pageTableSize) hcopies
  have hframes := Nat.mul_le_mul_right ptEntries hcopies
  have hsup : Supplied k.vm c (room true pageDirectorySize +
      (copies k.vm k.vm.currentPd (List.range pdEntries) * room true pageTableSize +
        (room false procSize + b)))
      (copies k.vm k.vm.currentPd (List.range pdEntries) * ptEntries + 0) :=
    h.supplied.less (by omega) (by omega)
  obtain ⟨pd, s₁, c₁, hclone, hs₁⟩ := hsup.clonePageDirectory h.current h.kernel
  obtain ⟨p, pa, s₂, hp, hs₂, hlt⟩ := hs₁.ikmalloc (by decide)
  have hnew : p ∉ k.created := by
    intro hin
    obtain ⟨c₂, hle, hat, -⟩ := hk.heap.clonePageDirectory hclone
    obtain ⟨c₃, -, -, -, -, hblock⟩ := hat.ikmalloc (by decide) hp
    obtain ⟨hge, -⟩ := hblock.resolve_left (by omega)
    have := (hk.home p hin).2
    omega
  obtain ⟨k₁, he, hvm, -, -, -, hcreated, -⟩ := hk.enqueue pd s₂ hnew
  have hrun : Process.fork r k = some (((k₁.setRegs p r).procs p).id,
      { k₁.setRegs p r with
        created := if p = 0 then k₁.created else k₁.created ++ [p]
        stores := .forked p ⟨r.eip, r.esp, r.ebp, pd⟩ :: k₁.stores }) := by
    rw [Process.fork, ← hk.pd, hclone]
    simp only [Option.bind_eq_bind, Option.bind_some, hp, he]
    rfl
  refine ⟨_, _, _, hrun, ?_, hvm ▸ hs₂⟩
  show (if p = 0 then k₁.created else k₁.created ++ [p]).length = _
  rw [if_neg (by omega), List.length_append, hcreated]
  rfl

def someRegs : Regs := ⟨0x101000, 0x1EFF00, 0x1EFF40⟩

theorem someRegs_legal : textStart ≤ someRegs.eip := by decide

theorem two_processes : ∃ k₀ k, Started k₀ ∧ Reach Call.Legal Call.step k₀ k ∧
    k.created.length = 2 ∧ k.currentProc = k.readyQueue := by
  obtain ⟨heap, -, -, -, h1, -⟩ := firstHeap_blocks
  obtain ⟨first, p, s, hb⟩ := smallBoot h1
  have hstacked : Stacked s 0xC0003004 (5 * room true pageTableSize + (room false procSize +
      (room true pageDirectorySize + (2 * room true pageTableSize + (room false procSize + 0)))))
      (2 * ptEntries + 5) := (SmallBoot.stacked hb).less (by decide) (by decide)
  obtain ⟨k₀, c₀, h0, hs₀, hone, hfirst⟩ := hstacked.procInitialize someRegs fun _ =>
    ⟨0, 0, 0, 0, 0, 0⟩
  obtain ⟨c, hready⟩ := procInitialize_ready hb.boots h0
  obtain ⟨pid, k, _, hf, htwo, -⟩ := Stacked.fork hready hs₀ someRegs
  obtain ⟨newProc, pd, c', hforked, -, -⟩ := hready.fork hf
  have hstep : Call.step k₀ (.fork someRegs) = some k := by
    rw [Call.step, hf]
    rfl
  refine ⟨k₀, k, ⟨_, _, _, s, _, _, _, hb.boots, h0⟩, .tail .refl
    (show Call.Legal k₀ (.fork someRegs) from someRegs_legal) hstep, by rw [htwo, hone], ?_⟩
  rw [hforked.currentProc, hforked.readyQueue, hfirst]

theorem Ready.switch_two (h : Ready k c) (hlen : k.created.length = 2)
    (hfirst : k.currentProc = k.readyQueue) :
    ∃ args k', switchProc someRegs k = (some args, k') ∧ k'.created = k.created ∧
      k'.currentProc ≠ k'.readyQueue := by
  obtain ⟨p, q, hl⟩ := List.length_eq_two.mp hlen
  have hqueue := h.queue
  rw [hl] at hqueue
  obtain ⟨hp, -, hq, hne, -⟩ := hqueue
  have hnext : (k.procs k.currentProc).next ≠ 0 := by
    rw [hfirst, hp, show (k.procs p).next = q from hq]
    exact hne
  refine ⟨_, _, h.switchProc_next someRegs_legal hnext, rfl, ?_⟩
  have hswitched := h.switchTo (r := someRegs) hnext
  rw [hswitched.currentProc, hswitched.readyQueue]
  exact h.queue.next_ne_first h.current

theorem contexts_kept_two : ∃ (k : ProcState) (args : PhysicalSwitch) (k' : ProcState) (c : Context),
    k.created.length = 2 ∧ switchProc someRegs k = (some args, k') ∧
    storedContext k'.currentProc k'.stores = some c ∧ args.eip = c.eip ∧ c.eip ≠ 0 := by
  obtain ⟨k₀, k, hstart, hr, htwo, hfirst⟩ := two_processes
  obtain ⟨c, hready⟩ := ready_of_reach hstart hr
  obtain ⟨args, k', hs, -⟩ := hready.switch_two htwo hfirst
  obtain ⟨-, -, -, -, -, hswitch⟩ := contexts_kept hstart hr
  obtain ⟨c, hc, hne, -, hargs⟩ := hswitch someRegs args k' someRegs_legal hs
  exact ⟨k, args, k', c, htwo, hs, hc, by rw [hargs], hne⟩

theorem rotates_two : ∃ (k : ProcState) (l : List Nat) (hin : k.currentProc ∈ l), l.length = 2 ∧
    (switchProc someRegs k).2.currentProc = l.next k.currentProc hin := by
  obtain ⟨k₀, k, hstart, hr, htwo, hfirst⟩ := two_processes
  obtain ⟨c, hready⟩ := ready_of_reach hstart hr
  obtain ⟨hin, hnext, -⟩ := rotates_iff hstart hr hready.queue htwo.ge
  refine ⟨k, k.created, hin, htwo, (hnext someRegs someRegs_legal).mpr ?_⟩
  obtain ⟨p, q, hl⟩ := List.length_eq_two.mp htwo
  have hqueue := hready.queue
  have hnodup := hready.queue.nodup
  rw [hl] at hqueue hnodup ⊢
  rw [hfirst, hqueue.1]
  intro he
  obtain rfl : q = p := Option.some.inj he
  simp at hnodup

/-- The second process never makes room for the first. -/
theorem no_rotation : ¬ ∀ (k₀ k : ProcState) (l : List Nat), Started k₀ →
    Reach Call.Legal Call.step k₀ k → k.Queue k.readyQueue l → 2 ≤ l.length →
    ∀ (hin : k.currentProc ∈ l) (r : Regs), textStart ≤ r.eip →
      (switchProc r k).2.currentProc = l.next k.currentProc hin := by
  intro hall
  obtain ⟨k₀, k₁, hstart, hr₁, htwo, hfirst⟩ := two_processes
  obtain ⟨c, hready₁⟩ := ready_of_reach hstart hr₁
  obtain ⟨args, k, hs, hcreated, hne⟩ := hready₁.switch_two htwo hfirst
  have hr : Reach Call.Legal Call.step k₀ k := .tail hr₁
    (show Call.Legal k₁ (.tick someRegs) from someRegs_legal) (by rw [Call.step, hs])
  obtain ⟨c, hready⟩ := ready_of_reach hstart hr
  rw [← hcreated] at htwo
  obtain ⟨p, q, hl⟩ := List.length_eq_two.mp htwo
  have hqueue := hready.queue
  have hcurrent := hready.current
  rw [hl] at hqueue hcurrent
  have hlast : (k.procs k.currentProc).next = 0 := by
    obtain ⟨hp, -, -, -, h0⟩ := hqueue
    rw [hp] at hne
    rw [List.mem_singleton.mp ((List.mem_cons.mp hcurrent).resolve_left hne)]
    exact h0
  have he := hall k₀ k _ hstart hr hready.queue htwo.ge hready.current someRegs someRegs_legal
  rw [hready.queue.next_last hready.current hlast] at he
  exact hready.first_not_next someRegs_legal htwo.ge he

end

end Shigure.Process
