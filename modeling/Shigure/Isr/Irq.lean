import Shigure.Isr.Descriptors
import Shigure.Isr.Frames

/-!
# Interrupt requests

`irq.S` and `irq.c`. The stubs are like those of the exceptions, but the processor pushes
no error code for a request, and `irq_handler` comes back.
-/

namespace Shigure.Isr

open Libc

abbrev Line := Fin 16

-- ---------------------------------------------------------------------------
-- The stubs
-- ---------------------------------------------------------------------------

/-- `IRQ num` up to its jump. -/
def irqStub (num : Nat) : List Instr := [.cli, .pushl 0, .pushl (BitVec.ofNat 32 (num + 32))]

/-- `irq_common_stub` before the call, the argument pushed. -/
def irqCommonStubEnter : List Instr :=
  [.pusha, .pushSeg .ds, .pushSeg .es, .pushSeg .fs, .pushSeg .gs,
   .movwAx 0x10, .movSegAx .ds, .movSegAx .es, .movSegAx .fs, .movSegAx .gs,
   .movlEspEax, .pushEax]

def irqCommonStubLeave : List Instr :=
  [.popEax, .popSeg .gs, .popSeg .fs, .popSeg .es, .popSeg .ds, .popa, .addlEsp 8, .iret]

-- ---------------------------------------------------------------------------
-- The handler
-- ---------------------------------------------------------------------------

structure PortWrite where
  port : BitVec 16
  value : BitVec 8
  deriving DecidableEq

/-- What `irq_handler` does: it writes to ports, prints, and leaves the memory as the
handler does, if that returns. -/
structure Served where
  writes : List PortWrite
  prints : List (BitVec 8)
  leaves : Option Words

def endOfInterrupt (intNo : Word) : List PortWrite :=
  (if 40 ≤ intNo then [⟨0xA0, 0x20⟩] else []) ++ [⟨0x20, 0x20⟩]

def irqHandler (irqRoutines : Word → Option Handler) (r : Word) (m : Words) : Served :=
  let intNo := (regsAt m r).intNo
  match irqRoutines (intNo - 32) with
  | some handler => ⟨endOfInterrupt intNo, [], handler r m⟩
  | none =>
    ⟨endOfInterrupt intNo, printed "No handler registered for IRQ %d\n" [.int (intNo - 32)], some m⟩

-- ---------------------------------------------------------------------------
-- A request
-- ---------------------------------------------------------------------------

/-- The processor's part; there is no error code. -/
def irqInterrupt (s : Machine) : Machine :=
  ((s.push s.cpu.eflags).push (s.cpu.cs.setWidth 32)).push s.cpu.eip

def irqEntered (n : Line) (s : Machine) : Machine :=
  execAll (irqInterrupt s) (irqStub n ++ irqCommonStubEnter)

def irqCalled (n : Line) (retAddr : Word) (s : Machine) : Machine := (irqEntered n s).push retAddr

def irqServed (irqRoutines : Word → Option Handler) (n : Line) (retAddr : Word) (s : Machine) :
    Served :=
  irqHandler irqRoutines (irqEntered n s).top (irqCalled n retAddr s).mem

/-- The machine after `iret`, if the handler returned. -/
def irqResumed (irqRoutines : Word → Option Handler) (t : Scratch) (n : Line) (retAddr : Word)
    (s : Machine) : Option Machine :=
  (irqServed irqRoutines n retAddr s).leaves.map fun m =>
    execAll ⟨t.over (irqEntered n s).cpu, m⟩ irqCommonStubLeave

-- ---------------------------------------------------------------------------
-- Frames
-- ---------------------------------------------------------------------------

def irqFrame (n : Line) (c : Cpu) : List Word :=
  [c.gs.setWidth 32, c.fs.setWidth 32, c.es.setWidth 32, c.ds.setWidth 32,
   c.edi, c.esi, c.ebp, c.esp - 20#32, c.ebx, c.edx, c.ecx, c.eax,
   BitVec.ofNat 32 (n + 32), 0, c.eip, c.cs.setWidth 32, c.eflags]

def irqFrameTop (s : Machine) : Word := s.cpu.esp - 68#32

section
variable {n : Line} {s s' : Machine} {retAddr : Word} {t : Scratch} {m : Words}
  {irqRoutines : Word → Option Handler}

theorem irqEntered_stands (n : Line) (s : Machine) :
    (irqEntered n s).Stands (irqFrameTop s :: irqFrame n s.cpu) := by
  have h0 : s.Stands [] := trivial
  have hall := h0.pushAll
    [s.cpu.eflags, s.cpu.cs.setWidth 32, s.cpu.eip, 0, BitVec.ofNat 32 (n + 32), s.cpu.eax, s.cpu.ecx,
      s.cpu.edx, s.cpu.ebx, s.cpu.esp - 20#32, s.cpu.ebp, s.cpu.esi, s.cpu.edi,
      s.cpu.ds.setWidth 32, s.cpu.es.setWidth 32, s.cpu.fs.setWidth 32, s.cpu.gs.setWidth 32,
      s.cpu.esp - 68#32] (by simp only [List.length_cons, List.length_nil]; omega)
  simp only [Machine.Stands, irqEntered, irqInterrupt, irqStub, execAll, irqCommonStubEnter,
    List.cons_append, List.nil_append, List.foldl_cons, List.foldl_nil, Instr.exec, Machine.push,
    Cpu.setSeg, Cpu.seg, irqFrameTop, irqFrame, sub_sub, BitVec.reduceAdd, List.reverse_cons,
    List.reverse_nil, List.append_nil] at hall ⊢
  exact hall

theorem irqEntered_top (n : Line) (s : Machine) : (irqEntered n s).top = irqFrameTop s :=
  (irqEntered_stands n s).1

theorem irqEntered_esp (n : Line) (s : Machine) : (irqEntered n s).cpu.esp = irqFrameTop s - 4#32 := by
  simp only [irqEntered, irqInterrupt, irqStub, execAll, irqCommonStubEnter, List.cons_append,
    List.nil_append, List.foldl_cons, List.foldl_nil, Instr.exec, Machine.push, Cpu.setSeg,
    irqFrameTop]
  bv_omega

theorem irqCalled_frame (n : Line) (retAddr : Word) (s : Machine) :
    (irqCalled n retAddr s).mem.Holds (irqFrameTop s) (irqFrame n s.cpu) := by
  have h := ((irqEntered_stands n s).push (by simp [irqFrame]) retAddr).2.2
  have hesp : (irqCalled n retAddr s).cpu.esp + 4#32 + 4#32 = irqFrameTop s := by
    simp only [irqCalled, Machine.push, irqEntered_esp, BitVec.sub_add_cancel]
  rwa [← hesp]

theorem irqCalled_regs (n : Line) (retAddr : Word) (s : Machine) :
    regsAt (irqCalled n retAddr s).mem (irqFrameTop s) =
      { gs := s.cpu.gs.setWidth 32, fs := s.cpu.fs.setWidth 32, ed := s.cpu.es.setWidth 32
        ds := s.cpu.ds.setWidth 32, edi := s.cpu.edi, esi := s.cpu.esi, ebp := s.cpu.ebp
        esp := s.cpu.esp - 20#32, ebx := s.cpu.ebx, edx := s.cpu.edx, ecx := s.cpu.ecx
        eax := s.cpu.eax, intNo := BitVec.ofNat 32 (n + 32), errCode := 0, eip := s.cpu.eip
        cs := s.cpu.cs.setWidth 32, eflags := s.cpu.eflags
        usresp := (irqCalled n retAddr s).mem (irqFrameTop s + 68#32)
        ss := (irqCalled n retAddr s).mem (irqFrameTop s + 72#32) } :=
  regsAt_of_holds (irqCalled_frame n retAddr s)

theorem line_number (n : Line) : BitVec.ofNat 32 (n + 32) - 32 = BitVec.ofNat 32 n := by
  have := n.isLt
  bv_omega

theorem endOfInterrupt_line (n : Line) : endOfInterrupt (BitVec.ofNat 32 (n + 32)) =
    (if 8 ≤ n.val then [⟨0xA0, 0x20⟩] else []) ++ [⟨0x20, 0x20⟩] := by
  have hiff : (40 : Word) ≤ BitVec.ofNat 32 (n + 32) ↔ 8 ≤ n.val := by
    have := n.isLt
    constructor <;> intro h <;> bv_omega
  simp only [endOfInterrupt, hiff]

theorem irqServed_eq (irqRoutines : Word → Option Handler) (n : Line) (retAddr : Word) (s : Machine) :
    irqServed irqRoutines n retAddr s =
      { writes := (if 8 ≤ n.val then [⟨0xA0, 0x20⟩] else []) ++ [⟨0x20, 0x20⟩]
        prints := if (irqRoutines (BitVec.ofNat 32 n)).isSome then []
          else printed "No handler registered for IRQ %d\n" [.int (BitVec.ofNat 32 n)]
        leaves := match irqRoutines (BitVec.ofNat 32 n) with
          | some handler => handler (irqFrameTop s) (irqCalled n retAddr s).mem
          | none => some (irqCalled n retAddr s).mem } := by
  have hno : (regsAt (irqCalled n retAddr s).mem (irqFrameTop s)).intNo = BitVec.ofNat 32 (n + 32) := by
    rw [irqCalled_regs]
  rw [irqServed, irqEntered_top, irqHandler, hno, line_number, endOfInterrupt_line]
  cases irqRoutines (BitVec.ofNat 32 n) with
  | some handler => rfl
  | none => rfl

theorem irq_leave_cpu (t : Scratch) (n : Line) (s : Machine) (m : Words) :
    (execAll ⟨t.over (irqEntered n s).cpu, m⟩ irqCommonStubLeave).cpu =
      { eax := (regsAt m (irqFrameTop s)).eax, ecx := (regsAt m (irqFrameTop s)).ecx
        edx := (regsAt m (irqFrameTop s)).edx, ebx := (regsAt m (irqFrameTop s)).ebx
        esp := irqFrameTop s + 68#32, ebp := (regsAt m (irqFrameTop s)).ebp
        esi := (regsAt m (irqFrameTop s)).esi, edi := (regsAt m (irqFrameTop s)).edi
        ds := (regsAt m (irqFrameTop s)).ds.setWidth 16
        es := (regsAt m (irqFrameTop s)).ed.setWidth 16
        fs := (regsAt m (irqFrameTop s)).fs.setWidth 16
        gs := (regsAt m (irqFrameTop s)).gs.setWidth 16
        cs := (regsAt m (irqFrameTop s)).cs.setWidth 16, eip := (regsAt m (irqFrameTop s)).eip
        eflags := (regsAt m (irqFrameTop s)).eflags } :=
  leave_cpu t _ m (irqEntered_esp n s)

theorem irq_restored (h : irqResumed irqRoutines t n retAddr s = some s')
    (hk : Kept (irqCalled n retAddr s).mem s'.mem (irqFrameTop s)) : s'.cpu = s.cpu := by
  rw [irqResumed, Option.map_eq_some_iff] at h
  obtain ⟨m, -, rfl⟩ := h
  have hmem : (execAll ⟨t.over (irqEntered n s).cpu, m⟩ irqCommonStubLeave).mem = m := leave_mem _
  rw [hmem] at hk
  have hesp : irqFrameTop s + 68#32 = s.cpu.esp := by
    rw [irqFrameTop]
    exact BitVec.sub_add_cancel _ _
  rw [irq_leave_cpu, hk, irqCalled_regs]
  simp [hesp]

theorem pushAll_mem (us : List Word) (s : Machine)
    (ha : ∀ i < us.length, a ≠ s.cpu.esp - BitVec.ofNat 32 (4 * (i + 1))) :
    (us.foldl (fun s w => s.push w) s).mem a = s.mem a := by
  induction us generalizing s with
  | nil => rfl
  | cons u us ih =>
    rw [List.foldl_cons, ih]
    · exact Words.store_other _ _ (ha 0 (Nat.zero_lt_succ _))
    · intro i hi
      have hnext := ha (i + 1) (Nat.succ_lt_succ hi)
      show a ≠ s.cpu.esp - 4#32 - BitVec.ofNat 32 (4 * (i + 1))
      have hsum : s.cpu.esp - 4#32 - BitVec.ofNat 32 (4 * (i + 1)) =
          s.cpu.esp - BitVec.ofNat 32 (4 * (i + 1 + 1)) := by
        rw [sub_sub, ← BitVec.ofNat_add]
        congr 2
        omega
      rwa [hsum]

/-- The 19 words below the interrupted stack are all that is written. -/
theorem irqCalled_mem (n : Line) (retAddr : Word) (s : Machine)
    (ha : ∀ i < 19, a ≠ s.cpu.esp - BitVec.ofNat 32 (4 * (i + 1))) :
    (irqCalled n retAddr s).mem a = s.mem a := by
  rw [← pushAll_mem [s.cpu.eflags, s.cpu.cs.setWidth 32, s.cpu.eip, 0, BitVec.ofNat 32 (n + 32),
    s.cpu.eax, s.cpu.ecx, s.cpu.edx, s.cpu.ebx, s.cpu.esp - 20#32, s.cpu.ebp, s.cpu.esi, s.cpu.edi,
    s.cpu.ds.setWidth 32, s.cpu.es.setWidth 32, s.cpu.fs.setWidth 32, s.cpu.gs.setWidth 32,
    s.cpu.esp - 68#32, retAddr] s ha]
  simp only [irqCalled, irqEntered, irqInterrupt, irqStub, execAll, irqCommonStubEnter,
    List.cons_append, List.nil_append, List.foldl_cons, List.foldl_nil, Instr.exec, Machine.push,
    Cpu.setSeg, Cpu.seg, sub_sub, BitVec.reduceAdd]

/-- A request tells its routine the line and the interrupted state, and the controllers that
it is over; it writes only below the interrupted stack, and if the routine comes back with its
frame as it was, then so does the processor. -/
theorem irq_transparent (irqRoutines : Word → Option Handler) (t : Scratch) (n : Line)
    (retAddr : Word) (s : Machine) :
    regsAt (irqCalled n retAddr s).mem (irqEntered n s).top =
        { gs := s.cpu.gs.setWidth 32, fs := s.cpu.fs.setWidth 32, ed := s.cpu.es.setWidth 32
          ds := s.cpu.ds.setWidth 32, edi := s.cpu.edi, esi := s.cpu.esi, ebp := s.cpu.ebp
          esp := s.cpu.esp - 20#32, ebx := s.cpu.ebx, edx := s.cpu.edx, ecx := s.cpu.ecx
          eax := s.cpu.eax, intNo := BitVec.ofNat 32 (n + 32), errCode := 0, eip := s.cpu.eip
          cs := s.cpu.cs.setWidth 32, eflags := s.cpu.eflags
          usresp := (irqCalled n retAddr s).mem s.cpu.esp
          ss := (irqCalled n retAddr s).mem (s.cpu.esp + 4#32) } ∧
      (∀ a, (∀ i < 19, a ≠ s.cpu.esp - BitVec.ofNat 32 (4 * (i + 1))) →
        (irqCalled n retAddr s).mem a = s.mem a) ∧
      (irqServed irqRoutines n retAddr s).writes =
        (if 8 ≤ n.val then [⟨0xA0, 0x20⟩] else []) ++ [⟨0x20, 0x20⟩] ∧
      (∀ handler, irqRoutines (BitVec.ofNat 32 n) = some handler →
        (irqServed irqRoutines n retAddr s).leaves =
          handler (irqEntered n s).top (irqCalled n retAddr s).mem) ∧
      ∀ s', irqResumed irqRoutines t n retAddr s = some s' →
        (irqServed irqRoutines n retAddr s).leaves = some s'.mem ∧
        (Kept (irqCalled n retAddr s).mem s'.mem (irqEntered n s).top → s'.cpu = s.cpu) := by
  have h68 : irqFrameTop s + 68#32 = s.cpu.esp := BitVec.sub_add_cancel _ _
  have h72 : irqFrameTop s + 72#32 = s.cpu.esp + 4#32 := by
    rw [irqFrameTop]
    bv_omega
  refine ⟨?_, fun a ha => irqCalled_mem n retAddr s ha, ?_, ?_, ?_⟩
  · rw [irqEntered_top, irqCalled_regs, h68, h72]
  · rw [irqServed_eq]
  · intro handler hh
    rw [irqServed_eq, irqEntered_top, hh]
  · intro s' hs'
    refine ⟨?_, fun hk => irq_restored hs' (irqEntered_top n s ▸ hk)⟩
    rw [irqResumed, Option.map_eq_some_iff] at hs'
    obtain ⟨m, hm, rfl⟩ := hs'
    exact hm

end

end Shigure.Isr
