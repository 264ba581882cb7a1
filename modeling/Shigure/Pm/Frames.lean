import Shigure.Lib.Bytes
import Shigure.Lib.Word

/-!
# The physical frame allocator

`pm.c`: eight bitmaps, one for each order, in which a set bit is a free block.
They lie one behind the other in memory, so an index past the end of one falls
into the next. `accesses` is not in the program: it records the calls of
`set_bit`, `clear_bit` and `is_bit_set`.

Frame counts are taken below `2 ^ 31`, where `int num_bits` holds them, so an
index is never negative.
-/

namespace Shigure.Pm

def frameSize : Nat := 0x1000

def maxOrder : Nat := 7

structure BuddyBitmap where
  /-- Address of the first byte. -/
  bitmap : Nat
  numBits : Nat
  deriving DecidableEq, Repr

def BuddyBitmap.bytes (b : BuddyBitmap) : Nat := (b.numBits + 7) / 8

structure Access where
  order : Nat
  index : Nat
  deriving DecidableEq, Repr

structure FrameState where
  mem : Mem
  nframes : Nat
  buddyBitmaps : Nat → BuddyBitmap
  accesses : List Access

/-- Where `ikmalloc` puts the bitmaps before there is a heap: the first one
page-aligned, each other behind the one before. -/
def bitmapAddr (placement nframes : Nat) : Nat → Nat
  | 0 => align placement frameSize
  | i + 1 => bitmapAddr placement nframes i + (nframes / 2 ^ i + 7) / 8

def frameInitialize (mem : Mem) (placement nframes : Nat) : FrameState where
  mem a :=
    if bitmapAddr placement nframes 0 ≤ a ∧ a < bitmapAddr placement nframes (maxOrder + 1)
    then 0xFF#8 else mem a
  nframes := nframes
  buddyBitmaps i := ⟨bitmapAddr placement nframes i, nframes / 2 ^ i⟩
  accesses := []

-- ---------------------------------------------------------------------------
-- Bits
-- ---------------------------------------------------------------------------

namespace FrameState

def byteAddr (st : FrameState) (order index : Nat) : Nat :=
  (st.buddyBitmaps order).bitmap + index / 8

def touch (st : FrameState) (order index : Nat) : FrameState :=
  { st with accesses := ⟨order, index⟩ :: st.accesses }

def setBit (st : FrameState) (order index : Nat) : FrameState :=
  let a := st.byteAddr order index
  { st.touch order index with mem := st.mem.set a (st.mem a ||| 1#8 <<< (index % 8)) }

def clearBit (st : FrameState) (order index : Nat) : FrameState :=
  let a := st.byteAddr order index
  { st.touch order index with mem := st.mem.set a (st.mem a &&& ~~~(1#8 <<< (index % 8))) }

def isBitSet (st : FrameState) (order index : Nat) : Bool × FrameState :=
  (st.mem (st.byteAddr order index) &&& 1#8 <<< (index % 8) != 0#8, st.touch order index)

def setRun (st : FrameState) (j start : Nat) : Nat → FrameState
  | 0 => st
  | n + 1 => (st.setRun j start n).setBit j (start + n)

def clearRun (st : FrameState) (j start : Nat) : Nat → FrameState
  | 0 => st
  | n + 1 => (st.clearRun j start n).clearBit j (start + n)

end FrameState

-- ---------------------------------------------------------------------------
-- Orders
-- ---------------------------------------------------------------------------

/-- `while ((1U << order) < size) order++`, of which 32 rounds are enough. -/
def orderLoop (size : Nat) : Nat → Nat → Nat
  | 0, order => order
  | fuel + 1, order => if 1 <<< order < size then orderLoop size fuel (order + 1) else order

def getOrder (size : Nat) : Nat :=
  orderLoop (add32 size (frameSize - 1) / frameSize) 32 0

def width (order j : Nat) : Nat := if order > j then 1 <<< (order - j) else 1

-- ---------------------------------------------------------------------------
-- Allocation
-- ---------------------------------------------------------------------------

def firstFree (order : Nat) : Nat → Nat → FrameState → Option Nat × FrameState
  | 0, _, st => (none, st)
  | n + 1, i, st =>
    let (free, st) := st.isBitSet order i
    if free then (some i, st) else firstFree order n (i + 1) st

def startIndex (order i j : Nat) : Nat :=
  if order ≥ j then i <<< (order - j) else i >>> (j - order)

/-- The marking loop, which stops at the first order whose bit is already
clear. -/
def markUsed (order i : Nat) : List Nat → FrameState → FrameState
  | [], st => st
  | j :: js, st =>
    let start := startIndex order i j
    let (free, st) := st.isBitSet j start
    if free then markUsed order i js (st.clearRun j start (width order j)) else st

def orders : List Nat := List.range (maxOrder + 1)

def pmalloc (size : Nat) (st : FrameState) : Int × FrameState :=
  let order := getOrder size
  match firstFree order (st.buddyBitmaps order).numBits 0 st with
  | (some i, st) => ((i * 2 ^ order : Nat), markUsed order i orders st)
  | (none, st) => (-1, st)

-- ---------------------------------------------------------------------------
-- Release
-- ---------------------------------------------------------------------------

/-- The merging loop. The bit that decides whether to go on is read from the
bitmap of the freed block's own order at every level `j`. -/
def mergeFree (order pfn : Nat) : List Nat → FrameState → FrameState
  | [], st => st
  | j :: js, st =>
    let start := pfn >>> j
    let st := st.setRun j start (width order j)
    let (free, st) := st.isBitSet order (start ^^^ 0b1)
    if free then mergeFree order pfn js st else st

def pfree (pfn size : Nat) (st : FrameState) : FrameState :=
  mergeFree (getOrder size) pfn orders st

end Shigure.Pm
