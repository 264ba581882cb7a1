import Shigure.Lib.Stack
import Shigure.Libc.Printf

/-!
# The exception stubs

`isr.S` and `isr.c`: the processor pushes the interrupted state and jumps to the
stub of the vector, the stub pushes two words and goes on in `isr_common_stub`,
which saves the registers, calls `exception_handler` with the address of the
stack top as its `struct regs *`, and undoes it all. Memory is a word for each
address; every access of the stubs is to a word of the stack.
-/

namespace Shigure.Isr

open Libc

abbrev Word := BitVec 32

inductive Seg
  | ds
  | es
  | fs
  | gs

structure Cpu where
  eax : Word
  ecx : Word
  edx : Word
  ebx : Word
  esp : Word
  ebp : Word
  esi : Word
  edi : Word
  ds : BitVec 16
  es : BitVec 16
  fs : BitVec 16
  gs : BitVec 16
  cs : BitVec 16
  eip : Word
  eflags : Word
  deriving DecidableEq

def Cpu.seg (c : Cpu) : Seg → BitVec 16
  | .ds => c.ds
  | .es => c.es
  | .fs => c.fs
  | .gs => c.gs

def Cpu.setSeg (c : Cpu) (v : BitVec 16) : Seg → Cpu
  | .ds => { c with ds := v }
  | .es => { c with es := v }
  | .fs => { c with fs := v }
  | .gs => { c with gs := v }

structure Machine where
  cpu : Cpu
  mem : Words

-- ---------------------------------------------------------------------------
-- Instructions
-- ---------------------------------------------------------------------------

def Machine.push (w : Word) (s : Machine) : Machine where
  cpu := { s.cpu with esp := s.cpu.esp - 4#32 }
  mem := s.mem.store (s.cpu.esp - 4#32) w

def Machine.top (s : Machine) : Word := s.mem s.cpu.esp

def Machine.drop (s : Machine) : Machine := { s with cpu := { s.cpu with esp := s.cpu.esp + 4#32 } }

inductive Instr
  | cli
  | pushl (w : Word)
  | pusha
  | pushSeg (r : Seg)
  | movwAx (v : BitVec 16)
  | movSegAx (r : Seg)
  | movlEspEax
  | pushEax
  | popEax
  | popSeg (r : Seg)
  | popa
  | addlEsp (n : Word)
  | iret

def Instr.exec (s : Machine) : Instr → Machine
  | .cli => { s with cpu := { s.cpu with eflags := s.cpu.eflags &&& ~~~(1#32 <<< 9) } }
  | .pushl w => s.push w
  | .pusha =>
    -- The stack pointer that is pushed is the one before the instruction.
    let c := s.cpu
    ((((((((s.push c.eax).push c.ecx).push c.edx).push c.ebx).push c.esp).push c.ebp).push c.esi
      ).push c.edi)
  | .pushSeg r => s.push ((s.cpu.seg r).setWidth 32)
  | .movwAx v => { s with cpu := { s.cpu with eax := (s.cpu.eax &&& 0xFFFF0000#32) ||| v.setWidth 32 } }
  | .movSegAx r => { s with cpu := s.cpu.setSeg (s.cpu.eax.setWidth 16) r }
  | .movlEspEax => { s with cpu := { s.cpu with eax := s.cpu.esp } }
  | .pushEax => s.push s.cpu.eax
  | .popEax => { s with cpu := { s.drop.cpu with eax := s.top } }
  | .popSeg r => { s with cpu := s.drop.cpu.setSeg (s.top.setWidth 16) r }
  | .popa =>
    let s₁ := s.drop
    let s₂ := s₁.drop
    -- The saved stack pointer is skipped.
    let s₄ := s₂.drop.drop
    let s₅ := s₄.drop
    let s₆ := s₅.drop
    let s₇ := s₆.drop
    { s with
      cpu := { s₇.drop.cpu with
        edi := s.top, esi := s₁.top, ebp := s₂.top, ebx := s₄.top, edx := s₅.top
        ecx := s₆.top, eax := s₇.top } }
  | .addlEsp n => { s with cpu := { s.cpu with esp := s.cpu.esp + n } }
  | .iret =>
    { s with
      cpu := { s.drop.drop.drop.cpu with
        eip := s.top, cs := s.drop.top.setWidth 16, eflags := s.drop.drop.top } }

def execAll (s : Machine) (code : List Instr) : Machine := code.foldl Instr.exec s

-- ---------------------------------------------------------------------------
-- The stubs
-- ---------------------------------------------------------------------------

/-- `ISR_NO_ERR num` up to its jump. -/
def isrNoErr (num : Nat) : List Instr := [.cli, .pushl 0, .pushl (BitVec.ofNat 32 num)]

def isrErr (num : Nat) : List Instr := [.cli, .pushl 0, .pushl (BitVec.ofNat 32 num)]

inductive Stub
  | noErr (num : Nat)
  | err (num : Nat)
  deriving DecidableEq

def Stub.code : Stub → List Instr
  | .noErr num => isrNoErr num
  | .err num => isrErr num

/-- The stubs as they are declared, in the order of `isr_stub_table`. -/
def isrStubTable : List Stub :=
  [.noErr 0, .noErr 1, .noErr 2, .noErr 3, .noErr 4, .noErr 5, .noErr 6, .noErr 7,
   .err 8, .noErr 9, .err 10, .err 11, .err 12, .err 13, .err 14, .noErr 15,
   .noErr 16, .err 17, .noErr 18, .noErr 19, .noErr 20, .noErr 21, .noErr 22, .noErr 23,
   .noErr 24, .noErr 25, .noErr 26, .noErr 27, .noErr 28, .noErr 29, .err 30, .noErr 31]

abbrev Vector := Fin 32

def stub (v : Vector) : Stub := isrStubTable.get (v.cast rfl)

def declaredErr (v : Vector) : Bool :=
  match stub v with
  | .noErr _ => false
  | .err _ => true

/-- `isr_common_stub` before the call, the argument pushed. -/
def isrCommonStubEnter : List Instr :=
  [.pusha, .pushSeg .ds, .pushSeg .es, .pushSeg .fs, .pushSeg .gs,
   .movwAx 0x10, .movSegAx .ds, .movSegAx .es, .movSegAx .fs, .movSegAx .gs,
   .movlEspEax, .pushEax]

def isrCommonStubLeave : List Instr :=
  [.popEax, .popSeg .gs, .popSeg .fs, .popSeg .es, .popSeg .ds, .popa, .addlEsp 8, .iret]

-- ---------------------------------------------------------------------------
-- The handler
-- ---------------------------------------------------------------------------

structure Regs where
  gs : Word
  fs : Word
  ed : Word
  ds : Word
  edi : Word
  esi : Word
  ebp : Word
  esp : Word
  ebx : Word
  edx : Word
  ecx : Word
  eax : Word
  intNo : Word
  errCode : Word
  eip : Word
  cs : Word
  eflags : Word
  usresp : Word
  ss : Word
  deriving DecidableEq

def regsAt (m : Words) (r : Word) : Regs where
  gs := m r
  fs := m (r + 4#32)
  ed := m (r + 8#32)
  ds := m (r + 12#32)
  edi := m (r + 16#32)
  esi := m (r + 20#32)
  ebp := m (r + 24#32)
  esp := m (r + 28#32)
  ebx := m (r + 32#32)
  edx := m (r + 36#32)
  ecx := m (r + 40#32)
  eax := m (r + 44#32)
  intNo := m (r + 48#32)
  errCode := m (r + 52#32)
  eip := m (r + 56#32)
  cs := m (r + 60#32)
  eflags := m (r + 64#32)
  usresp := m (r + 68#32)
  ss := m (r + 72#32)

/-- A registered handler: what it leaves in memory, if it returns. -/
abbrev Handler := Word → Words → Option Words

def exceptionMessages : List String :=
  ["Division By Zero", "Debug", "Non Maskable Interrupt", "Breakpoint", "Into Detected Overflow",
   "Out of Bounds", "Invalid Opcode", "No Coprocessor", "Double Fault 007",
   "Coprocessor Segment Overrun", "Bad TSS", "Segment Not Present", "Stack Fault",
   "General Protection Fault", "Page Fault", "Unknown Interrupt", "Coprocessor Fault",
   "Alignment Check", "Machine Check", "Reserved", "Reserved", "Reserved", "Reserved", "Reserved",
   "Reserved", "Reserved", "Reserved", "Reserved", "Reserved", "Reserved", "Reserved", "Reserved"]

inductive Outcome
  /-- The system is halted by a loop without end, the lines put last. -/
  | halted (lines : List String)
  /-- A registered handler does not return. -/
  | lost
  | returned (m : Words)

def exceptionHandler (interruptHandlers : Word → Option Handler) (r : Word) (m : Words) : Outcome :=
  let handled :=
    match interruptHandlers (regsAt m r).intNo with
    | some handler => handler r m
    | none => some m
  match handled with
  | none => .lost
  | some m =>
    let intNo := (regsAt m r).intNo
    if intNo < 32 then
      .halted ["\nException. System halted.", exceptionMessages.getD intNo.toNat ""]
    else
      .returned m

structure Fault where
  present : Bool
  rw : Bool
  us : Bool
  reserved : Bool
  deriving DecidableEq

def faultOf (errCode : Word) : Fault where
  present := !errCode.getLsbD 0
  rw := errCode.getLsbD 1
  us := errCode.getLsbD 2
  reserved := errCode.getLsbD 3

def Fault.words (f : Fault) : List String :=
  [if f.present then "present" else "", if f.rw then "read-only" else "",
   if f.us then "user-mode" else "", if f.reserved then "reserved" else ""]

def Fault.diagnosis (f : Fault) : String :=
  match f.present, f.rw, f.us with
  | false, false, false => "\nSupervisory process tried to read a non-present page entry."
  | false, false, true => "\nSupervisory process tried to read a page and cause a protection fault."
  | false, true, false => "\nSupervisory process tried to write to a non-present page entry."
  | false, true, true => "\nSupervisory process tried to write a page and caused a protection fault."
  | true, false, false => "\nUser Process tried to read a non-present page entry."
  | true, false, true => "\nUser process tried to read a page and caused a protection fault."
  | true, true, false => "\nUer process tried to write to a non-present page entry."
  | true, true, true => "\nUser process tried to write a page and caused a protection fault."

def pageFault (regs : Regs) (faultingAddress : Word) : List (BitVec 8) :=
  let f := faultOf regs.errCode
  printed "Page fault (%s%s%s%s) at %x\n"
      (f.words.map (fun w => .str (text w)) ++ [.int faultingAddress]) ++
    printed f.diagnosis [] ++ printed "\n" []

-- ---------------------------------------------------------------------------
-- An exception
-- ---------------------------------------------------------------------------

/-- The processor's part: `eflags`, `cs`, `eip` and, for a vector declared with an
error code, that code. The gate is an interrupt gate without a change of
privilege. -/
def interrupt (v : Vector) (code : Word) (s : Machine) : Machine :=
  let s₁ := ((s.push s.cpu.eflags).push (s.cpu.cs.setWidth 32)).push s.cpu.eip
  if declaredErr v then s₁.push code else s₁

def entered (v : Vector) (code : Word) (s : Machine) : Machine :=
  execAll (interrupt v code s) ((stub v).code ++ isrCommonStubEnter)

def received (v : Vector) (code : Word) (s : Machine) : Regs :=
  regsAt (entered v code s).mem (entered v code s).top

/-- What a C function leaves in the registers that it need not keep. -/
structure Scratch where
  eax : Word
  ecx : Word
  edx : Word
  eflags : Word

def Scratch.over (t : Scratch) (c : Cpu) : Cpu :=
  { c with eax := t.eax, ecx := t.ecx, edx := t.edx, eflags := t.eflags }

/-- `call *%eax`: the return address goes below the argument. -/
def called (v : Vector) (code : Word) (retAddr : Word) (s : Machine) : Machine :=
  (entered v code s).push retAddr

/-- The machine after `iret`, if the handler returned. -/
def resumed (interruptHandlers : Word → Option Handler) (t : Scratch) (v : Vector)
    (code retAddr : Word) (s : Machine) : Option Machine :=
  match exceptionHandler interruptHandlers (entered v code s).top (called v code retAddr s).mem with
  | .returned m => some (execAll ⟨t.over (entered v code s).cpu, m⟩ isrCommonStubLeave)
  | _ => none

end Shigure.Isr
