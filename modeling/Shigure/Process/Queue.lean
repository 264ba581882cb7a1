import Shigure.Lib.Chain
import Shigure.Paging.Boot

/-!
# Processes

`proc.c`. The processes are objects at their addresses, as page tables are, and
`ready_queue` is their list. `fork` runs with interrupts disabled, so that it is
one step; the registers that it and `switch_proc` read come from outside. After
`switch_physical_proc` the resumed process returns at once, from `switch_proc`
or from `fork`, because it sees `0xDEAD` for the result of `get_eip`.

`created` and `stores` are not in the program: the processes that were made, in
order, and every context that was stored for one, the latest first.
-/

namespace Shigure.Process

open Paging
open Vm (pageSize)
open Pm (frameSize)

structure Proc where
  id : Int
  esp : Nat
  ebp : Nat
  eip : Nat
  pd : Nat
  next : Nat

def procSize : Nat := 24

/-- What a process goes on with. -/
structure Context where
  eip : Nat
  esp : Nat
  ebp : Nat
  pd : Nat
  deriving DecidableEq

def Proc.context (p : Proc) : Context := ⟨p.eip, p.esp, p.ebp, p.pd⟩

/-- A context stored for the process at `p`. -/
inductive Store where
  | forked (p : Nat) (c : Context)
  | switchedOut (p : Nat) (c : Context)
  deriving DecidableEq

/-- The registers; `eip` is what `get_eip` returns. -/
structure Regs where
  eip : Nat
  esp : Nat
  ebp : Nat

structure ProcState where
  vm : VmState
  procs : Nat → Proc
  currentProc : Nat
  readyQueue : Nat
  nextPid : Nat
  created : List Nat
  stores : List Store

namespace ProcState

def setProc (k : ProcState) (p : Nat) (x : Proc) : ProcState :=
  { k with procs := fun q => if q = p then x else k.procs q }

def setNext (k : ProcState) (p next : Nat) : ProcState :=
  k.setProc p { k.procs p with next := next }

def setRegs (k : ProcState) (p : Nat) (r : Regs) : ProcState :=
  k.setProc p { k.procs p with eip := r.eip, esp := r.esp, ebp := r.ebp }

def Queue (k : ProcState) (p : Nat) (l : List Nat) : Prop := Chain 0 (fun q => (k.procs q).next) p l

end ProcState

-- ---------------------------------------------------------------------------
-- `move_stack`
-- ---------------------------------------------------------------------------

def currentPhys (vaddr : Nat) (s : VmState) : Nat :=
  pteToPfn (s.entry (findPage vaddr s.currentPd s)) * frameSize + vaddr % frameSize

/-- `memcpy` of the C library on virtual addresses: each byte is read and written where
`current_pd` maps it to. -/
def memcpy : Nat → Nat → Nat → VmState → VmState
  | _, _, 0, s => s
  | dst, src, n + 1, s =>
    let phys := s.phys.set (currentPhys dst s) (s.phys (currentPhys src s))
    memcpy (add32 dst 1) (add32 src 1) n { s with phys := phys }

def mapStackPage (i : Nat) (s : VmState) : Option VmState := do
  let (page, s) ← getPage i s.currentPd true s
  allocFrame page false true s

/-- A word that points into the old stack is taken for a base pointer. -/
def remapWord (oldStackPtr initialEsp offset ptr : Nat) (s : VmState) : Option VmState :=
  let word := s.phys.read32 (currentPhys ptr s)
  if oldStackPtr < word ∧ word < initialEsp then
    some { s with phys := s.phys.write32 (currentPhys ptr s) (add32 word offset) }
  else some s

/-- The new stack and base pointer are in the registers that are returned. -/
def moveStack (newStackStart size initialEsp : Nat) (r : Regs) (s : VmState) :
    Option (Regs × VmState) := do
  let s ← countDown pageSize (fun i => i ≥ sub32 newStackStart size) mapStackPage loopFuel
    newStackStart s
  let offset := sub32 newStackStart initialEsp
  let newStackPtr := add32 r.esp offset
  let newBasePtr := add32 r.ebp offset
  let s := memcpy newStackPtr r.esp (sub32 initialEsp r.esp) s
  let s ← countDown 4 (fun ptr => ptr > sub32 newStackStart size)
    (remapWord r.esp initialEsp offset) wordSize newStackStart s
  some (⟨r.eip, newStackPtr, newBasePtr⟩, s)

-- ---------------------------------------------------------------------------
-- Processes
-- ---------------------------------------------------------------------------

/-- Before `proc_initialize`; `procs` is what memory holds. -/
def ProcState.unstarted (vm : VmState) (procs : Nat → Proc) : ProcState :=
  ⟨vm, procs, 0, 0, 1, [], []⟩

/-- `initialEsp` is where the stack of the boot began. -/
def procInitialize (initialEsp : Nat) (r : Regs) (k : ProcState) : Option ProcState := do
  let (_, vm) ← moveStack 0xE0000000 0x4000 initialEsp r k.vm
  let (p, _, vm) ← ikmalloc procSize false vm
  some
    { k.setProc p ⟨intOfWord k.nextPid, 0, 0, 0, vm.currentPd, 0⟩ with
      vm := vm
      currentProc := p
      readyQueue := p
      nextPid := add32 k.nextPid 1
      created := [p] }

/-- The new process has a context of zeros until it is in the queue. -/
def enqueue (newProc pd : Nat) (k : ProcState) : Option ProcState := do
  let k := { k.setProc newProc ⟨intOfWord k.nextPid, 0, 0, 0, pd, 0⟩ with
    nextPid := add32 k.nextPid 1 }
  let last ← lastNode 0 (fun p => (k.procs p).next) wordSize k.readyQueue
  some (k.setNext last newProc)

/-- In the parent, which gets the id of the child. The memory is used even if `kmalloc`
has returned `NULL`; no process is made then. -/
def fork (r : Regs) (k : ProcState) : Option (Int × ProcState) := do
  let (pd, vm) ← clonePageDirectory (k.procs k.currentProc).pd k.vm
  let (newProc, _, vm) ← ikmalloc procSize false vm
  let k ← enqueue newProc pd { k with vm := vm }
  let k := k.setRegs newProc r
  some ((k.procs newProc).id,
    { k with
      created := if newProc = 0 then k.created else k.created ++ [newProc]
      stores := .forked newProc ⟨r.eip, r.esp, r.ebp, pd⟩ :: k.stores })

structure PhysicalSwitch where
  eip : Nat
  pdPaddr : BitVec 32
  ebp : Nat
  esp : Nat

/-- Store the registers and take the next process, or start again from the beginning. -/
def switchTo (r : Regs) (k : ProcState) : PhysicalSwitch × ProcState :=
  let saved := k.setRegs k.currentProc r
  let next := (saved.procs k.currentProc).next
  let next := if next = 0 then k.readyQueue else next
  let p := saved.procs next
  (⟨p.eip, (k.vm.pageDirectories p.pd).paddrPde, p.ebp, p.esp⟩,
    { saved with
      currentProc := next
      vm := { k.vm with currentPd := p.pd }
      stores := .switchedOut k.currentProc ⟨r.eip, r.esp, r.ebp, k.vm.currentPd⟩ :: k.stores })

/-- `none` if `switch_physical_proc` is not called. -/
def switchProc (r : Regs) (k : ProcState) : Option PhysicalSwitch × ProcState :=
  if k.currentProc = 0 then (none, k)
  else if (k.procs k.currentProc).next = 0 then (none, k)
  else if r.eip = 0xDEAD then (none, k)
  else
    let (args, k) := switchTo r k
    (some args, k)

def getpid (k : ProcState) : Int := (k.procs k.currentProc).id

end Shigure.Process
