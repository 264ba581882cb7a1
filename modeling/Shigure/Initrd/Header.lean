import Shigure.Lib.Bytes
import Shigure.Libc.Str

/-!
# The format of the ramdisk image

A word with the number of records, a table of records of 88 bytes, and the
contents of the files behind the space reserved for the table. The builder and
the kernel have their own copies of the record type; both lay it out the same
way, with two bytes of padding behind the name and three at the end.
-/

namespace Shigure.Initrd

def initrdMagic : BitVec 16 := 0xDEAD

def initrdMaxFiles : Nat := 128

def afile : BitVec 8 := 0x1

def directory : BitVec 8 := 0x2

def sizeofHeader : Nat := 4

def sizeofFileHeader : Nat := 88

structure FileHeader where
  magic : BitVec 16
  name : Vector (BitVec 8) 64
  offset : BitVec 32
  length : BitVec 32
  parentNumber : BitVec 32
  number : BitVec 32
  type : BitVec 8
  deriving DecidableEq

def FileHeader.zero : FileHeader := ⟨0, Vector.replicate 64 0, 0, 0, 0, 0, 0⟩

def FileHeader.byte (h : FileHeader) (i : Nat) : BitVec 8 :=
  if i = 0 then h.magic.setWidth 8
  else if i = 1 then (h.magic >>> 8).setWidth 8
  else if i < 66 then h.name.toList.getD (i - 2) 0
  else if i < 68 then 0
  else if i < 72 then (Mem.wordBytes h.offset).getD (i - 68) 0
  else if i < 76 then (Mem.wordBytes h.length).getD (i - 72) 0
  else if i < 80 then (Mem.wordBytes h.parentNumber).getD (i - 76) 0
  else if i < 84 then (Mem.wordBytes h.number).getD (i - 80) 0
  else if i = 84 then h.type
  else 0

def fileHeaderAt (m : Mem) (a : Nat) : FileHeader where
  magic := .ofNat 16 ((m a).toNat + 2 ^ 8 * (m (a + 1)).toNat)
  name := Vector.ofFn fun i => m (a + 2 + i)
  offset := .ofNat 32 (m.read32 (a + 68))
  length := .ofNat 32 (m.read32 (a + 72))
  parentNumber := .ofNat 32 (m.read32 (a + 76))
  number := .ofNat 32 (m.read32 (a + 80))
  type := m (a + 84)

theorem fileHeaderAt_congr {m m' : Mem}
    (h : ∀ x, a ≤ x → x < a + sizeofFileHeader → m' x = m x) :
    fileHeaderAt m' a = fileHeaderAt m a := by
  unfold sizeofFileHeader at h
  have hword : ∀ k, k ≤ 84 → m'.read32 (a + k) = m.read32 (a + k) :=
    fun k hk => Mem.read32_congr fun x h1 h2 => h x (by omega) (by omega)
  have hname : ∀ i : Fin 64, m' (a + 2 + i) = m (a + 2 + i) :=
    fun i => h _ (by omega) (by omega)
  simp only [fileHeaderAt, hword 68 (by omega), hword 72 (by omega), hword 76 (by omega),
    hword 80 (by omega), hname, h a (by omega) (by omega), h (a + 1) (by omega) (by omega),
    h (a + 84) (by omega) (by omega)]

theorem byte_word (h : FileHeader) (v : BitVec 32) (k : Nat)
    (hb : ∀ i, i < 4 → h.byte (k + i) = (Mem.wordBytes v).getD i 0) {m : Mem}
    (hk : k + 4 ≤ sizeofFileHeader) (hm : ∀ i, i < sizeofFileHeader → m (a + i) = h.byte i) :
    BitVec.ofNat 32 (m.read32 (a + k)) = v := by
  have hr : m.read32 (a + k) = v.toNat := by
    apply Mem.read32_of_bytes
    intro i hi
    rw [Nat.add_assoc, hm (k + i) (by omega), hb i hi]
  rw [hr, BitVec.ofNat_toNat, BitVec.setWidth_eq]

theorem fileHeaderAt_byte (h : FileHeader) {m : Mem}
    (hm : ∀ i, i < sizeofFileHeader → m (a + i) = h.byte i) : fileHeaderAt m a = h := by
  have hmagic : BitVec.ofNat 16 ((m a).toNat + 2 ^ 8 * (m (a + 1)).toNat) = h.magic := by
    have h0 : m a = h.byte 0 := hm 0 (by decide)
    have hlt := h.magic.isLt
    apply BitVec.eq_of_toNat_eq
    rw [h0, hm 1 (by decide)]
    simp only [FileHeader.byte, ↓reduceIte, Nat.one_ne_zero, BitVec.toNat_ofNat,
      BitVec.toNat_setWidth, BitVec.toNat_ushiftRight, Nat.shiftRight_eq_div_pow]
    omega
  have hname : (Vector.ofFn fun i : Fin 64 => m (a + 2 + i)) = h.name := by
    ext i hi
    rw [Vector.getElem_ofFn, Nat.add_assoc, hm (2 + i) (by unfold sizeofFileHeader; omega)]
    simp [FileHeader.byte, show 2 + i ≠ 1 by omega, show 2 + i < 66 by omega, hi]
  have htype : m (a + 84) = h.type := hm 84 (by decide)
  unfold fileHeaderAt
  rw [hmagic, hname, htype, byte_word h h.offset 68 _ (by decide) hm,
    byte_word h h.length 72 _ (by decide) hm, byte_word h h.parentNumber 76 _ (by decide) hm,
    byte_word h h.number 80 _ (by decide) hm]
  all_goals
    intro i hi
    obtain rfl | rfl | rfl | rfl : i = 0 ∨ i = 1 ∨ i = 2 ∨ i = 3 := by omega
    all_goals rfl

end Shigure.Initrd
