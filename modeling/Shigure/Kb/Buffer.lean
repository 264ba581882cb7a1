import Shigure.Lib.Reach
import Shigure.Lib.Ring

/-!
# The keyboard buffer

`kb.c`: the interrupt handler puts characters into a ring, `keyboard_getchar`
takes them out. The reader is a machine of three steps, between any two of which
an interrupt may run: the emptiness test, the read of the slot, the update of
the index. A reader that finds the buffer empty tests again.
-/

namespace Shigure.Kb

def keyboardBufferSize : Nat := 128

structure Buffer where
  keyboardBuffer : Nat → BitVec 8
  bufferStart : Nat
  bufferEnd : Nat

def isBufferEmpty (b : Buffer) : Bool := b.bufferStart == b.bufferEnd

def isBufferFull (b : Buffer) : Bool := (b.bufferEnd + 1) % keyboardBufferSize == b.bufferStart

def keyboardBufferPut (c : BitVec 8) (b : Buffer) : Buffer :=
  if !isBufferFull b then
    { b with
      keyboardBuffer := fun k => if k = b.bufferEnd then c else b.keyboardBuffer k
      bufferEnd := (b.bufferEnd + 1) % keyboardBufferSize }
  else b

/-- The characters of `kb_us` in the order of their scancodes. The rest of its
128 entries are 0. -/
def kbUs : List (BitVec 8) :=
  [0, 27, 49, 50, 51, 52, 53, 54, 55, 56, 57, 48, 45, 61, 8, 9, 113, 119, 101, 114, 116, 121, 117,
    105, 111, 112, 91, 93, 10, 0, 97, 115, 100, 102, 103, 104, 106, 107, 108, 59, 39, 96, 0, 92,
    122, 120, 99, 118, 98, 110, 109, 44, 46, 47, 0, 42, 0, 32, 0, 0, 0, 0, 0, 0, 0, 0, 0, 0, 0, 0,
    0, 0, 0xDD, 0, 45, 0, 0, 0, 43]

/-- The character of a pressed key. A key that is released has the top bit
set. -/
def pressed (scancode : BitVec 8) : Option (BitVec 8) :=
  if scancode &&& 0x80 = 0 then some (kbUs.getD scancode.toNat 0) else none

def keyboardHandler (scancode : BitVec 8) (b : Buffer) : Buffer :=
  match pressed scancode with
  | some c => keyboardBufferPut c b
  | none => b

-- ---------------------------------------------------------------------------
-- The reader and its interrupts
-- ---------------------------------------------------------------------------

inductive Reader
  | test
  | read
  | update (c : BitVec 8)
  deriving DecidableEq, Repr

/-- `accepted` and `returned` are not in the program: they are the characters
that went into the buffer and those that calls of `keyboard_getchar` have
returned. -/
structure KbState where
  buffer : Buffer
  reader : Reader
  accepted : List (BitVec 8)
  returned : List (BitVec 8)

def KbState.init : KbState := ⟨⟨fun _ => 0, 0, 0⟩, .test, [], []⟩

def KbState.put (c : BitVec 8) (s : KbState) : KbState :=
  { s with
    buffer := keyboardBufferPut c s.buffer
    accepted := if isBufferFull s.buffer then s.accepted else s.accepted ++ [c] }

/-- One step of `keyboard_getchar`; after the last one it is called again. -/
def KbState.readerStep (s : KbState) : KbState :=
  match s.reader with
  | .test => if isBufferEmpty s.buffer then s else { s with reader := .read }
  | .read => { s with reader := .update (s.buffer.keyboardBuffer s.buffer.bufferStart) }
  | .update c =>
    { s with
      buffer := { s.buffer with bufferStart := (s.buffer.bufferStart + 1) % keyboardBufferSize }
      reader := .test
      returned := s.returned ++ [c] }

inductive Event
  | put (c : BitVec 8)
  | reader

def Event.step (s : KbState) : Event → Option KbState
  | .put c => some (s.put c)
  | .reader => some s.readerStep

theorem keyboardHandler_put (s : KbState) (scancode : BitVec 8) :
    keyboardHandler scancode s.buffer = s.buffer ∨
      ∃ c, keyboardHandler scancode s.buffer = (s.put c).buffer := by
  rw [keyboardHandler]
  cases pressed scancode with
  | none => exact .inl rfl
  | some c => exact .inr ⟨c, rfl⟩

end Shigure.Kb
