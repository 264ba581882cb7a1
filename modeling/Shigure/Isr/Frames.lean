import Shigure.Isr.Stub

/-!
# Exception frames

What stands on the stack when `exception_handler` is called, word by word, and
what the way back makes of it.
-/

namespace Shigure.Isr

open Libc

def Machine.Stands (s : Machine) (ws : List Word) : Prop := s.mem.Holds s.cpu.esp ws

theorem Machine.Stands.push {s : Machine} (h : s.Stands ws) (hlen : ws.length < 2 ^ 29) (w : Word) :
    (s.push w).Stands (w :: ws) :=
  Words.Holds.push h hlen

theorem Machine.Stands.pushAll {s : Machine} (h : s.Stands ws) (us : List Word)
    (hlen : us.length + ws.length ≤ 2 ^ 29) :
    (us.foldl (fun s w => s.push w) s).Stands (us.reverse ++ ws) := by
  induction us generalizing s ws with
  | nil => exact h
  | cons u us ih =>
    rw [List.length_cons] at hlen
    rw [List.reverse_cons, List.append_assoc]
    exact ih (h.push (by omega) u) (by simp; omega)

/-- The words that the processor pushes. -/
def cpuFrame (v : Vector) (code : Word) (c : Cpu) : List Word :=
  (if declaredErr v then [code] else []) ++ [c.eip, c.cs.setWidth 32, c.eflags]

/-- The words that the stub and `isr_common_stub` push below them. -/
def stubFrame (v : Vector) (esp : Word) (c : Cpu) : List Word :=
  [c.gs.setWidth 32, c.fs.setWidth 32, c.es.setWidth 32, c.ds.setWidth 32,
   c.edi, c.esi, c.ebp, esp, c.ebx, c.edx, c.ecx, c.eax, BitVec.ofNat 32 v, 0]

theorem cpuFrame_length (v : Vector) (code : Word) (c : Cpu) :
    (cpuFrame v code c).length < 2 ^ 28 := by
  unfold cpuFrame
  split <;> simp

theorem interrupt_stands (v : Vector) (code : Word) (s : Machine) :
    (interrupt v code s).Stands (cpuFrame v code s.cpu) := by
  have h0 : s.Stands [] := trivial
  have h1 := ((h0.push (by simp) s.cpu.eflags).push (by simp) (s.cpu.cs.setWidth 32)).push
    (by simp) s.cpu.eip
  unfold interrupt cpuFrame
  split
  · exact h1.push (by simp) code
  · exact h1

theorem stub_num (v : Vector) : stub v = if declaredErr v then .err v else .noErr v := by
  revert v
  decide

theorem stub_code (v : Vector) :
    (stub v).code = [.cli, .pushl 0, .pushl (BitVec.ofNat 32 v)] := by
  rw [stub_num]
  split <;> rfl

def pushed (v : Vector) : Word := if declaredErr v then 16#32 else 12#32

theorem interrupt_cpu (v : Vector) (code : Word) (s : Machine) :
    (interrupt v code s).cpu = { s.cpu with esp := s.cpu.esp - pushed v } := by
  unfold interrupt pushed
  split <;> simp only [Machine.push, Cpu.mk.injEq, and_true, true_and] <;> bv_omega

def frameTop (v : Vector) (s : Machine) : Word := s.cpu.esp - pushed v - 56#32

theorem entered_esp (v : Vector) (code : Word) (s : Machine) :
    (entered v code s).cpu.esp = frameTop v s - 4#32 := by
  unfold entered
  rw [stub_code]
  simp only [execAll, isrCommonStubEnter, List.cons_append, List.nil_append, List.foldl_cons,
    List.foldl_nil, Instr.exec, Machine.push, Cpu.setSeg, interrupt_cpu, frameTop]
  bv_omega

/-- The stack at the call: the argument, the stub's words, the processor's words. -/
theorem entered_stands (v : Vector) (code : Word) (s : Machine) :
    (entered v code s).Stands
      (frameTop v s :: (stubFrame v (s.cpu.esp - pushed v - 8#32) s.cpu ++ cpuFrame v code s.cpu)) := by
  have hlen := cpuFrame_length v code s.cpu
  have h := interrupt_stands v code s
  have hcpu := interrupt_cpu v code s
  unfold entered
  rw [stub_code]
  generalize interrupt v code s = i at *
  generalize cpuFrame v code s.cpu = ws at *
  have hall := h.pushAll
    [0, BitVec.ofNat 32 v, i.cpu.eax, i.cpu.ecx, i.cpu.edx, i.cpu.ebx, i.cpu.esp - 8#32, i.cpu.ebp,
      i.cpu.esi, i.cpu.edi, i.cpu.ds.setWidth 32, i.cpu.es.setWidth 32, i.cpu.fs.setWidth 32,
      i.cpu.gs.setWidth 32, i.cpu.esp - 56#32] (by simp only [List.length_cons, List.length_nil]; omega)
  simp only [Machine.Stands, execAll, isrCommonStubEnter, List.cons_append, List.nil_append,
    List.foldl_cons, List.foldl_nil, Instr.exec, Machine.push, Cpu.setSeg, Cpu.seg, hcpu, frameTop,
    stubFrame, sub_sub, add_assoc, BitVec.reduceAdd, List.reverse_cons, List.reverse_nil]
    at hall ⊢
  exact hall

theorem entered_top (v : Vector) (code : Word) (s : Machine) :
    (entered v code s).top = frameTop v s :=
  (entered_stands v code s).1

theorem entered_frame (v : Vector) (code : Word) (s : Machine) :
    (entered v code s).mem.Holds (frameTop v s)
      (stubFrame v (s.cpu.esp - pushed v - 8#32) s.cpu ++ cpuFrame v code s.cpu) := by
  have h := (entered_stands v code s).2
  rwa [entered_esp, BitVec.sub_add_cancel] at h

theorem called_frame (v : Vector) (code retAddr : Word) (s : Machine) :
    (called v code retAddr s).mem.Holds (frameTop v s)
      (stubFrame v (s.cpu.esp - pushed v - 8#32) s.cpu ++ cpuFrame v code s.cpu) := by
  have hlen := cpuFrame_length v code s.cpu
  have h := ((entered_stands v code s).push (by simp [stubFrame]; omega) retAddr).2.2
  have hesp : (called v code retAddr s).cpu.esp + 4#32 + 4#32 = frameTop v s := by
    simp only [called, Machine.push, entered_esp, BitVec.sub_add_cancel]
  rwa [← hesp]

theorem regsAt_of_holds {m : Words} {r : Word}
    (h : m.Holds r [gs, fs, ed, ds, edi, esi, ebp, esp, ebx, edx, ecx, eax, intNo, errCode, eip, cs,
      eflags]) :
    regsAt m r = ⟨gs, fs, ed, ds, edi, esi, ebp, esp, ebx, edx, ecx, eax, intNo, errCode, eip, cs,
      eflags, m (r + 68#32), m (r + 72#32)⟩ := by
  simp only [Words.Holds, add_assoc, BitVec.reduceAdd] at h
  obtain ⟨h0, h1, h2, h3, h4, h5, h6, h7, h8, h9, h10, h11, h12, h13, h14, h15, h16, -⟩ := h
  simp only [regsAt, h0, h1, h2, h3, h4, h5, h6, h7, h8, h9, h10, h11, h12, h13, h14, h15, h16]

-- ---------------------------------------------------------------------------
-- The way back
-- ---------------------------------------------------------------------------

/-- The registers after `iret` are those of the `struct regs`, as it is then. -/
theorem leave_cpu (t : Scratch) (c : Cpu) (m : Words) (hesp : c.esp = r - 4#32) :
    (execAll ⟨t.over c, m⟩ isrCommonStubLeave).cpu =
      { eax := (regsAt m r).eax, ecx := (regsAt m r).ecx, edx := (regsAt m r).edx
        ebx := (regsAt m r).ebx, esp := r + 68#32, ebp := (regsAt m r).ebp
        esi := (regsAt m r).esi, edi := (regsAt m r).edi
        ds := (regsAt m r).ds.setWidth 16, es := (regsAt m r).ed.setWidth 16
        fs := (regsAt m r).fs.setWidth 16, gs := (regsAt m r).gs.setWidth 16
        cs := (regsAt m r).cs.setWidth 16, eip := (regsAt m r).eip
        eflags := (regsAt m r).eflags } := by
  simp only [execAll, isrCommonStubLeave, List.foldl_cons, List.foldl_nil, Instr.exec,
    Machine.drop, Machine.top, Cpu.setSeg, Scratch.over, hesp, BitVec.sub_add_cancel, add_assoc,
    BitVec.reduceAdd, regsAt]

theorem leave_mem (s : Machine) : (execAll s isrCommonStubLeave).mem = s.mem := rfl

/-- The saved registers and the processor's words are as they were; the handler
may have changed what the way back skips. -/
def Kept (m m' : Words) (r : Word) : Prop :=
  let f := regsAt m' r
  f = { regsAt m r with
    esp := f.esp, intNo := f.intNo, errCode := f.errCode, usresp := f.usresp, ss := f.ss }

/-- The `struct regs` of the vector tells what happened, and the way back restores
the interrupted state. -/
structure FrameMatches (v : Vector) (code : Word) (s : Machine) : Prop where
  intNo : (received v code s).intNo = BitVec.ofNat 32 v
  errCode : (received v code s).errCode = if declaredErr v then code else 0
  eip : (received v code s).eip = s.cpu.eip
  cs : (received v code s).cs = s.cpu.cs.setWidth 32
  eflags : (received v code s).eflags = s.cpu.eflags
  restored : ∀ interruptHandlers t retAddr s',
    resumed interruptHandlers t v code retAddr s = some s' →
      Kept (called v code retAddr s).mem s'.mem (frameTop v s) → s'.cpu = s.cpu

section
variable {v : Vector} {code retAddr : Word} {s s' : Machine} {t : Scratch}
  {interruptHandlers : Word → Option Handler}

theorem resumed_cases (h : resumed interruptHandlers t v code retAddr s = some s') :
    exceptionHandler interruptHandlers (frameTop v s) (called v code retAddr s).mem =
        .returned s'.mem ∧
      s'.cpu.esp = frameTop v s + 68#32 ∧
      s' = execAll ⟨t.over (entered v code s).cpu, s'.mem⟩ isrCommonStubLeave := by
  unfold resumed at h
  rw [entered_top] at h
  split at h
  · rename_i m hm
    obtain rfl := Option.some.inj h
    rw [leave_mem, leave_cpu t _ m (entered_esp v code s)]
    exact ⟨hm, rfl, rfl⟩
  · cases h

theorem regsAt_noErr (hv : declaredErr v = false) (m : Words)
    (h : m.Holds (frameTop v s)
      (stubFrame v (s.cpu.esp - pushed v - 8#32) s.cpu ++ cpuFrame v code s.cpu)) :
    regsAt m (frameTop v s) =
      { gs := s.cpu.gs.setWidth 32, fs := s.cpu.fs.setWidth 32, ed := s.cpu.es.setWidth 32
        ds := s.cpu.ds.setWidth 32, edi := s.cpu.edi, esi := s.cpu.esi, ebp := s.cpu.ebp
        esp := s.cpu.esp - pushed v - 8#32, ebx := s.cpu.ebx, edx := s.cpu.edx, ecx := s.cpu.ecx
        eax := s.cpu.eax, intNo := BitVec.ofNat 32 v, errCode := 0, eip := s.cpu.eip
        cs := s.cpu.cs.setWidth 32, eflags := s.cpu.eflags
        usresp := m (frameTop v s + 68#32), ss := m (frameTop v s + 72#32) } := by
  apply regsAt_of_holds
  rw [cpuFrame, if_neg (by simp [hv])] at h
  exact h

theorem restored_noErr (hv : declaredErr v = false)
    (h : resumed interruptHandlers t v code retAddr s = some s')
    (hk : Kept (called v code retAddr s).mem s'.mem (frameTop v s)) : s'.cpu = s.cpu := by
  obtain ⟨-, -, hs'⟩ := resumed_cases h
  have hframe := regsAt_noErr hv _ (called_frame v code retAddr s)
  rw [hs', leave_cpu t _ _ (entered_esp v code s), hk, hframe]
  have hesp : frameTop v s + 68#32 = s.cpu.esp := by
    rw [frameTop, pushed, if_neg (by simp [hv])]
    bv_omega
  simp [hesp]

theorem frameMatches_noErr (hv : declaredErr v = false) : FrameMatches v code s := by
  have hr : received v code s = regsAt (entered v code s).mem (frameTop v s) := by
    rw [received, entered_top]
  rw [regsAt_noErr hv _ (entered_frame v code s)] at hr
  constructor
  · rw [hr]
  · rw [hr, hv]
    rfl
  · rw [hr]
  · rw [hr]
  · rw [hr]
  · intro interruptHandlers t retAddr s' h hk
    exact restored_noErr hv h hk

end

/-- A handler that marks the exception as dealt with. -/
def dealtWith : Handler := fun r m => some (m.store (r + 48#32) 32)

theorem dealtWith_kept (m : Words) (r : Word) : Kept m (m.store (r + 48#32) 32) r := by
  simp [Kept, regsAt, Words.store]

theorem dealtWith_returns (r : Word) (m : Words) :
    exceptionHandler (fun _ => some dealtWith) r m = .returned (m.store (r + 48#32) 32) := by
  simp [exceptionHandler, dealtWith, regsAt]

/-- The frames match `struct regs` exactly for the vectors without an error code:
`ISR_ERR` pushes a zero although the processor has pushed the code already. -/
theorem frame_matches_iff (v : Vector) (code : Word) (s : Machine) :
    FrameMatches v code s ↔ declaredErr v = false := by
  constructor
  · intro h
    by_contra hv
    -- Any way back leaves the stack four bytes below where it was.
    let t : Scratch := ⟨0, 0, 0, 0⟩
    obtain ⟨s', hs'⟩ : ∃ s', resumed (fun _ => some dealtWith) t v code 0 s = some s' := by
      unfold resumed
      rw [dealtWith_returns]
      exact ⟨_, rfl⟩
    obtain ⟨hret, hesp, -⟩ := resumed_cases hs'
    rw [dealtWith_returns, Outcome.returned.injEq] at hret
    have hcpu := h.restored _ t 0 s' hs' (hret ▸ dealtWith_kept _ _)
    rw [hcpu, frameTop, pushed, if_pos (by simpa using hv)] at hesp
    bv_omega
  · exact frameMatches_noErr

/-- A page fault on a write that the kernel made. -/
theorem page_fault_misread :
    ¬ FrameMatches 14 2 ⟨⟨0, 0, 0, 0, 0x9000, 0, 0, 0, 0x10, 0x10, 0x10, 0x10, 0x08, 0x100000, 2⟩,
      fun _ => 0⟩ := by
  intro h
  have herr := h.errCode
  revert herr
  decide +kernel

/-- The error code that the handler sees is 0 for every vector. -/
theorem received_errCode (v : Vector) (code : Word) (s : Machine) :
    (received v code s).errCode = 0 := by
  have h := (entered_frame v code s).append
  rw [received, entered_top]
  simp only [Words.Holds, stubFrame, add_assoc, BitVec.reduceAdd] at h
  exact h.2.2.2.2.2.2.2.2.2.2.2.2.2.1

/-- So `page_fault` reports every fault as a read of an absent page. -/
theorem pageFault_received (v : Vector) (code cr2 : Word) (s : Machine) :
    pageFault (received v code s) cr2 =
      printed "Page fault (%s%s%s%s) at %x\n"
          [.str (text "present"), .str [], .str [], .str [], .int cr2] ++
        printed "\nUser Process tried to read a non-present page entry." [] ++ printed "\n" [] := by
  rw [pageFault, received_errCode]
  rfl

theorem called_intNo (v : Vector) (code retAddr : Word) (s : Machine) :
    (regsAt (called v code retAddr s).mem (frameTop v s)).intNo = BitVec.ofNat 32 v := by
  have h := (called_frame v code retAddr s).append
  simp only [Words.Holds, stubFrame, add_assoc, BitVec.reduceAdd] at h
  exact h.2.2.2.2.2.2.2.2.2.2.2.2.1

theorem not_resumed {interruptHandlers : Word → Option Handler} (v : Vector)
    (hkeep : ∀ handler r m m', interruptHandlers (BitVec.ofNat 32 v) = some handler →
      handler r m = some m' → (regsAt m' r).intNo = (regsAt m r).intNo) :
    resumed interruptHandlers t v code retAddr s = none := by
  have hno := called_intNo v code retAddr s
  have hlt : BitVec.ofNat 32 v < 32 := by
    have := v.isLt
    bv_omega
  unfold resumed
  rw [entered_top, exceptionHandler, hno]
  cases hh : interruptHandlers (BitVec.ofNat 32 v) with
  | none => simp only [hno, hlt, ↓reduceIte]
  | some handler =>
    cases hm : handler (frameTop v s) (called v code retAddr s).mem with
    | none => simp only [hm]
    | some m' => simp only [hm, hkeep handler _ _ m' hh hm, hno, hlt, ↓reduceIte]

end Shigure.Isr
