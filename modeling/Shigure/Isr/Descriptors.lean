import Mathlib.Tactic.IntervalCases
import Shigure.Isr.Stub
import Shigure.Lib.Stride

/-!
# Descriptors

`gdt.c` and `idt.c`: the entries as they are written field by field, and what the
processor takes from the eight bytes of one.
-/

namespace Shigure.Isr

-- ---------------------------------------------------------------------------
-- The IDT
-- ---------------------------------------------------------------------------

structure IdtEntry where
  baseLow : BitVec 16
  selector : BitVec 16
  reserved : BitVec 8
  flags : BitVec 8
  baseHigh : BitVec 16
  deriving DecidableEq

/-- The packed structure, the first field lowest. -/
def IdtEntry.bits (e : IdtEntry) : BitVec 64 :=
  e.baseHigh ++ e.flags ++ e.reserved ++ e.selector ++ e.baseLow

abbrev Idt := BitVec 8 → IdtEntry

def idtSetDescriptor (index : BitVec 8) (base : Word) (selector : BitVec 16) (flags : BitVec 8)
    (idt : Idt) : Idt := fun k =>
  if k = index then
    { baseLow := (base &&& 0xFFFF).setWidth 16
      selector := selector
      reserved := 0
      flags := flags
      baseHigh := ((base >>> 16) &&& 0xFFFF).setWidth 16 }
  else idt k

def idtInstall : Idt := fun _ => ⟨0, 0, 0, 0, 0⟩

/-- What the processor reads in a gate. -/
structure Gate where
  offset : Word
  selector : BitVec 16
  type : BitVec 5
  dpl : BitVec 2
  present : Bool
  deriving DecidableEq

def gateOf (bits : BitVec 64) : Gate where
  offset := bits.extractLsb' 48 16 ++ bits.extractLsb' 0 16
  selector := bits.extractLsb' 16 16
  type := bits.extractLsb' 40 5
  dpl := bits.extractLsb' 45 2
  present := bits.getLsbD 47

-- ---------------------------------------------------------------------------
-- The GDT
-- ---------------------------------------------------------------------------

structure GdtEntry where
  limitLow : BitVec 16
  baseLow : BitVec 16
  baseMiddle : BitVec 8
  access : BitVec 8
  granularity : BitVec 8
  baseHigh : BitVec 8
  deriving DecidableEq

def GdtEntry.bits (e : GdtEntry) : BitVec 64 :=
  e.baseHigh ++ e.granularity ++ e.access ++ (e.baseMiddle ++ e.baseLow) ++ e.limitLow

abbrev Gdt := Fin 3 → GdtEntry

def gdtSetDescriptor (index : Fin 3) (base limit : Word) (access granularity : BitVec 8)
    (gdt : Gdt) : Gdt := fun k =>
  if k = index then
    { limitLow := (limit &&& 0xFFFF).setWidth 16
      baseLow := (base &&& 0xFFFF).setWidth 16
      baseMiddle := ((base >>> 16) &&& 0xFF).setWidth 8
      access := access
      granularity := ((limit >>> 16) &&& 0x0F).setWidth 8 ||| (granularity &&& 0xF0)
      baseHigh := ((base >>> 24) &&& 0xFF).setWidth 8 }
  else gdt k

structure Segment where
  base : Word
  limit : BitVec 20
  access : BitVec 8
  flags : BitVec 4
  deriving DecidableEq

def segmentOf (bits : BitVec 64) : Segment where
  base := bits.extractLsb' 56 8 ++ bits.extractLsb' 16 24
  limit := bits.extractLsb' 48 4 ++ bits.extractLsb' 0 16
  access := bits.extractLsb' 40 8
  flags := bits.extractLsb' 52 4

/-- The last offset in an ordinary segment; with the granularity flag the limit counts
pages. -/
def Segment.last (s : Segment) : Word :=
  if s.flags.getLsbD 3 then s.limit ++ 0xFFF#12 else s.limit.setWidth 32

theorem masked (x : Word) (k n : Nat) (hn : n ≤ 32) :
    ((x >>> k) &&& BitVec.ofNat 32 (2 ^ n - 1)).setWidth n = x.extractLsb' k n := by
  ext i hi
  rw [BitVec.getElem_setWidth, BitVec.getLsbD_and, BitVec.getLsbD_ushiftRight,
    BitVec.getLsbD_ofNat, Nat.testBit_two_pow_sub_one, BitVec.getElem_extractLsb']
  simp only [hi, show i < 32 by omega, decide_true, Bool.and_true]

theorem field_above {high : BitVec a} {low : BitVec b} (h : b ≤ k) :
    (high ++ low).extractLsb' k n = high.extractLsb' (k - b) n :=
  BitVec.extractLsb'_append_eq_of_le h

theorem field_below {high : BitVec a} {low : BitVec b} (h : k + n ≤ b) :
    (high ++ low).extractLsb' k n = low.extractLsb' k n :=
  BitVec.extractLsb'_append_eq_of_add_le h

theorem masked_byte (x : Word) (k : Nat) :
    ((x >>> k) &&& 0xFF).setWidth 8 = x.extractLsb' k 8 := masked x k 8 (by decide)

theorem masked_half (x : Word) (k : Nat) :
    ((x >>> k) &&& 0xFFFF).setWidth 16 = x.extractLsb' k 16 := masked x k 16 (by decide)

theorem masked_low (x : Word) : (x &&& 0xFFFF).setWidth 16 = x.extractLsb' 0 16 := by
  have h := masked_half x 0
  rwa [BitVec.ushiftRight_zero] at h

theorem gateOf_bits (e : IdtEntry) :
    gateOf e.bits = ⟨e.baseHigh ++ e.baseLow, e.selector, e.flags.extractLsb' 0 5,
      e.flags.extractLsb' 5 2, e.flags.getLsbD 7⟩ := by
  simp (disch := decide) only [gateOf, IdtEntry.bits, field_above, field_below, Nat.reduceSub,
    BitVec.extractLsb'_eq_self, BitVec.getLsbD_append, Nat.reduceLT, ↓reduceIte]

theorem segmentOf_bits (e : GdtEntry) :
    segmentOf e.bits = ⟨e.baseHigh ++ (e.baseMiddle ++ e.baseLow),
      e.granularity.extractLsb' 0 4 ++ e.limitLow, e.access, e.granularity.extractLsb' 4 4⟩ := by
  have hbase : (e.baseMiddle ++ e.baseLow).extractLsb' 0 24 = e.baseMiddle ++ e.baseLow :=
    BitVec.extractLsb'_eq_self
  have haccess : e.access.extractLsb' 0 8 = e.access := BitVec.extractLsb'_eq_self
  have hhigh : e.baseHigh.extractLsb' 0 8 = e.baseHigh := BitVec.extractLsb'_eq_self
  have hlow : e.limitLow.extractLsb' 0 16 = e.limitLow := BitVec.extractLsb'_eq_self
  simp (disch := decide) only [segmentOf, GdtEntry.bits, field_above, field_below, Nat.reduceSub]
  rw [hbase, hlow]
  exact congrArg₂ (fun base access => Segment.mk base _ access _) (by rw [hhigh]) haccess

theorem fields_join (x : BitVec w) (k m n : Nat) :
    x.extractLsb' (k + n) m ++ x.extractLsb' k n = x.extractLsb' k (m + n) :=
  BitVec.extractLsb'_append_extractLsb'_eq_extractLsb' rfl

-- ---------------------------------------------------------------------------
-- Descriptors that are set
-- ---------------------------------------------------------------------------

theorem gateOf_set (index : BitVec 8) (base : Word) (selector : BitVec 16) (flags : BitVec 8)
    (idt : Idt) : gateOf (idtSetDescriptor index base selector flags idt index).bits =
      ⟨base, selector, flags.extractLsb' 0 5, flags.extractLsb' 5 2, flags.getLsbD 7⟩ := by
  rw [gateOf_bits, idtSetDescriptor, if_pos rfl]
  dsimp only
  rw [masked_half, masked_low, fields_join base 0 16 16, BitVec.extractLsb'_eq_self]

/-- The low half of the flags byte is the top of the limit. -/
theorem granularity_limit (limit : Word) (granularity : BitVec 8) :
    (((limit >>> 16) &&& 0x0F).setWidth 8 ||| (granularity &&& 0xF0)).extractLsb' 0 4 =
        limit.extractLsb' 16 4 ∧
      (((limit >>> 16) &&& 0x0F).setWidth 8 ||| (granularity &&& 0xF0)).extractLsb' 4 4 =
        granularity.extractLsb' 4 4 := by
  constructor
  · ext i hi
    simp only [BitVec.getElem_extractLsb', BitVec.getLsbD_or, BitVec.getLsbD_setWidth,
      BitVec.getLsbD_and, BitVec.getLsbD_ushiftRight]
    interval_cases i <;> simp
  · ext i hi
    simp only [BitVec.getElem_extractLsb', BitVec.getLsbD_or, BitVec.getLsbD_setWidth,
      BitVec.getLsbD_and, BitVec.getLsbD_ushiftRight]
    interval_cases i <;> simp

theorem segmentOf_set (index : Fin 3) (base limit : Word) (access granularity : BitVec 8)
    (gdt : Gdt) : segmentOf (gdtSetDescriptor index base limit access granularity gdt index).bits =
      ⟨base, limit.extractLsb' 0 20, access, granularity.extractLsb' 4 4⟩ := by
  obtain ⟨htop, hflags⟩ := granularity_limit limit granularity
  rw [segmentOf_bits, gdtSetDescriptor, if_pos rfl]
  dsimp only
  rw [masked_low, masked_low, masked_byte, masked_byte, htop, hflags, fields_join base 0 8 16,
    fields_join base 0 8 24, fields_join limit 0 4 16, BitVec.extractLsb'_eq_self]

theorem idtSetDescriptor_other {k : BitVec 8} (h : k ≠ index) :
    idtSetDescriptor index base selector flags idt k = idt k := if_neg h

theorem gdtSetDescriptor_other {k : Fin 3} (h : k ≠ index) :
    gdtSetDescriptor index base limit access granularity gdt k = gdt k := if_neg h

-- ---------------------------------------------------------------------------
-- The tables of the boot
-- ---------------------------------------------------------------------------

def absentGate : Gate := ⟨0, 0, 0, 0, false⟩

structure GateCall where
  index : BitVec 8
  base : Word
  selector : BitVec 16
  flags : BitVec 8

def GateCall.make (idt : Idt) (c : GateCall) : Idt :=
  idtSetDescriptor c.index c.base c.selector c.flags idt

def GateCall.gate (c : GateCall) : Gate :=
  ⟨c.base, c.selector, c.flags.extractLsb' 0 5, c.flags.extractLsb' 5 2, c.flags.getLsbD 7⟩

structure SegmentCall where
  index : Fin 3
  base : Word
  limit : Word
  access : BitVec 8
  granularity : BitVec 8

def SegmentCall.make (gdt : Gdt) (c : SegmentCall) : Gdt :=
  gdtSetDescriptor c.index c.base c.limit c.access c.granularity gdt

def SegmentCall.segment (c : SegmentCall) : Segment :=
  ⟨c.base, c.limit.extractLsb' 0 20, c.access, c.granularity.extractLsb' 4 4⟩

theorem last_call {α β γ κ : Type} [DecidableEq κ] (make : (κ → α) → γ → κ → α) (index : γ → κ)
    (read : α → β) (value : γ → β) (hsame : ∀ table c, read (make table c (index c)) = value c)
    (hother : ∀ table c k, k ≠ index c → make table c k = table k) (table : κ → α) (calls : List γ)
    (k : κ) : read (calls.foldl make table k) =
      ((calls.reverse.find? fun c => index c = k).map value).getD (read (table k)) := by
  induction calls generalizing table with
  | nil => rfl
  | cons c calls ih =>
    rw [List.foldl_cons, ih, List.reverse_cons, List.find?_append]
    cases hfind : calls.reverse.find? fun c => index c = k with
    | some d => rfl
    | none =>
      by_cases hk : index c = k
      · subst hk
        simp [hsame]
      · simp [hk, hother table c k (Ne.symm hk)]

/-- Whatever was set in whatever order: the processor reads in an entry what the last call
for it said, the limit cut to 20 bits and the granularity to its flags. -/
theorem descriptors_read_back (gates : List GateCall) (segments : List SegmentCall) (gdt : Gdt)
    (v : BitVec 8) (k : Fin 3) :
    gateOf (gates.foldl GateCall.make idtInstall v).bits =
        ((gates.reverse.find? fun c => c.index = v).map GateCall.gate).getD absentGate ∧
      segmentOf (segments.foldl SegmentCall.make gdt k).bits =
        ((segments.reverse.find? fun c => c.index = k).map SegmentCall.segment).getD
          (segmentOf (gdt k).bits) := by
  have hnone : gateOf (idtInstall v).bits = absentGate := by
    rw [idtInstall, gateOf_bits]
    decide
  constructor
  · rw [← hnone]
    exact last_call GateCall.make GateCall.index (fun e => gateOf e.bits) GateCall.gate
      (fun idt c => gateOf_set c.index c.base c.selector c.flags idt)
      (fun _ _ _ hk => idtSetDescriptor_other hk) idtInstall gates v
  · exact last_call SegmentCall.make SegmentCall.index (fun e => segmentOf e.bits)
      SegmentCall.segment
      (fun gdt c => segmentOf_set c.index c.base c.limit c.access c.granularity gdt)
      (fun _ _ _ hk => gdtSetDescriptor_other hk) gdt segments k

end Shigure.Isr
