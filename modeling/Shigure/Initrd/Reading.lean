import Shigure.Initrd.Loader

/-!
# Reading files

What `memcpy` moves between areas that do not meet, and when `initrd_read` clamps
a read to the file.
-/

namespace Shigure.Initrd

theorem toNat_add_ofNat {a : BitVec 32} (h : a.toNat + i < 2 ^ 32) :
    (a + .ofNat 32 i).toNat = a.toNat + i := by
  rw [BitVec.toNat_add, BitVec.toNat_ofNat]
  omega

structure Apart (dst src : BitVec 32) (n : Nat) : Prop where
  dst_fits : dst.toNat + n ≤ 2 ^ 32
  src_fits : src.toNat + n ≤ 2 ^ 32
  disjoint : ∀ i j, i < n → j < n → dst.toNat + i ≠ src.toNat + j

theorem Apart.shrink (h : Apart dst src n) (hk : k ≤ n) : Apart dst src k where
  dst_fits := Nat.le_trans (by omega) h.dst_fits
  src_fits := Nat.le_trans (by omega) h.src_fits
  disjoint := fun i j hi hj => h.disjoint i j (by omega) (by omega)

theorem memcpy_outside (m : Mem) (hfits : dst.toNat + n ≤ 2 ^ 32)
    (hx : x < dst.toNat ∨ dst.toNat + n ≤ x) : memcpy dst src n m x = m x := by
  induction n with
  | zero => rfl
  | succ n ih =>
    rw [memcpy]
    simp only [Mem.set]
    rw [if_neg (by rw [toNat_add_ofNat (by omega)]; omega), ih (by omega) (by omega)]

theorem memcpy_copies (m : Mem) (h : Apart dst src n) (hi : i < n) :
    memcpy dst src n m (dst.toNat + i) = m (src.toNat + i) := by
  induction n with
  | zero => omega
  | succ n ih =>
    have hd := h.dst_fits
    have hs := h.src_fits
    rw [memcpy]
    simp only [Mem.set, toNat_add_ofNat (a := dst) (i := n) (by omega),
      toNat_add_ofNat (a := src) (i := n) (by omega)]
    by_cases hin : i = n
    · subst hin
      rw [if_pos rfl]
      apply memcpy_outside m (by omega)
      by_contra hmeet
      exact h.disjoint (src.toNat + i - dst.toNat) i (by omega) (by omega) (by omega)
    · rw [if_neg (by omega)]
      exact ih (h.shrink (by omega)) (by omega)

-- ---------------------------------------------------------------------------
-- The clamp
-- ---------------------------------------------------------------------------

def clamped (length offset size : BitVec 32) : Nat := min size.toNat (length.toNat - offset.toNat)

/-- The second comparison is made on a sum that has wrapped to a value within the
file. -/
def SumWraps (length offset size : BitVec 32) : Prop :=
  offset.toNat ≤ length.toNat ∧ 2 ^ 32 ≤ offset.toNat + size.toNat ∧
    offset.toNat + size.toNat - 2 ^ 32 ≤ length.toNat

instance (length offset size : BitVec 32) : Decidable (SumWraps length offset size) :=
  inferInstanceAs (Decidable (_ ∧ _ ∧ _))

section
variable {s : Fs} {node : FsNode} {offset size buffer : BitVec 32}

theorem initrdRead_past (h : (s.fileHeader node.inode.toNat).length.toNat < offset.toNat) :
    initrdRead s node offset size buffer = ⟨0, s.mem, []⟩ := by
  unfold initrdRead
  exact if_pos h

theorem initrdRead_within (h : offset.toNat ≤ (s.fileHeader node.inode.toNat).length.toNat) :
    initrdRead s node offset size buffer =
      let header := s.fileHeader node.inode.toNat
      let n := if offset + size > header.length then header.length - offset else size
      ⟨n, memcpy buffer (header.offset + offset) n.toNat s.mem,
        (List.range n.toNat).map fun i => (header.offset + offset + .ofNat 32 i).toNat⟩ := by
  unfold initrdRead
  exact if_neg (by simpa [BitVec.lt_def] using h)

theorem readSize_eq {length offset : BitVec 32} (size : BitVec 32)
    (h : offset.toNat ≤ length.toNat) :
    (if offset + size > length then length - offset else size).toNat =
      if SumWraps length offset size then size.toNat else clamped length offset size := by
  have hs := size.isLt
  have hl := length.isLt
  have hsub : (length - offset).toNat = length.toNat - offset.toNat := by
    rw [BitVec.toNat_sub]
    omega
  have hsize : (if offset + size > length then length - offset else size).toNat =
      if length.toNat < (offset.toNat + size.toNat) % 2 ^ 32 then length.toNat - offset.toNat
      else size.toNat := by
    simp only [gt_iff_lt, BitVec.lt_def, BitVec.toNat_add, apply_ite BitVec.toNat, hsub]
  rw [hsize]
  by_cases hw : SumWraps length offset size
  · rw [if_pos hw]
    unfold SumWraps at hw
    rw [if_neg (by omega)]
  · rw [if_neg hw]
    unfold SumWraps at hw
    unfold clamped
    split <;> omega

/-- A read at an offset delivers the bytes of the file of the record up to its end, and
nothing else. -/
structure Clamped (h : FileHeader) (m : Mem) (offset size buffer : BitVec 32) (r : ReadResult) :
    Prop where
  returned : r.returned.toNat = clamped h.length offset size
  copied : ∀ i, i < clamped h.length offset size →
    r.mem (buffer.toNat + i) = m (h.offset.toNat + offset.toNat + i)
  untouched : ∀ x, x < buffer.toNat ∨ buffer.toNat + clamped h.length offset size ≤ x →
    r.mem x = m x
  source : ∀ a ∈ r.source, h.offset.toNat ≤ a ∧ a < h.offset.toNat + h.length.toNat

/-- The bytes that the read is to deliver, from address `file` on, and room for them in
the buffer. -/
structure Room (file n : Nat) (buffer : BitVec 32) : Prop where
  fits : buffer.toNat + n ≤ 2 ^ 32
  disjoint : ∀ i j, i < n → j < n → buffer.toNat + i ≠ file + j

theorem clamped_past {length offset : BitVec 32} (size : BitVec 32)
    (h : length.toNat ≤ offset.toNat) :
    clamped length offset size = 0 := by
  unfold clamped
  omega

theorem clamped_le (length offset size : BitVec 32) :
    clamped length offset size ≤ length.toNat - offset.toNat :=
  Nat.min_le_right _ _

theorem read_clamped
    (hfile : (s.fileHeader node.inode.toNat).offset.toNat +
      (s.fileHeader node.inode.toNat).length.toNat ≤ 2 ^ 32)
    (hroom : Room ((s.fileHeader node.inode.toNat).offset.toNat + offset.toNat)
      (clamped (s.fileHeader node.inode.toNat).length offset size) buffer)
    (hwrap : ¬ SumWraps (s.fileHeader node.inode.toNat).length offset size) :
    Clamped (s.fileHeader node.inode.toNat) s.mem offset size buffer
      (initrdRead s node offset size buffer) := by
  obtain hpast | hin :=
    Nat.lt_or_ge (s.fileHeader node.inode.toNat).length.toNat offset.toNat
  · have h0 := clamped_past size (Nat.le_of_lt hpast)
    rw [initrdRead_past hpast]
    exact ⟨h0.symm, by omega, fun x _ => rfl, by simp⟩
  · have hsize := readSize_eq size hin
    rw [if_neg hwrap] at hsize
    rw [initrdRead_within hin]
    have hle := clamped_le (s.fileHeader node.inode.toNat).length offset size
    simp only [hsize]
    generalize s.fileHeader node.inode.toNat = h at *
    generalize hn : clamped h.length offset size = n at *
    obtain rfl | hpos := Nat.eq_zero_or_pos n
    · exact ⟨hsize.trans hn.symm, by omega, fun x _ => rfl, by simp⟩
    · have hsrc : (h.offset + offset).toNat = h.offset.toNat + offset.toNat := by
        rw [BitVec.toNat_add, Nat.mod_eq_of_lt (by omega)]
      have hapart : Apart buffer (h.offset + offset) n :=
        ⟨hroom.fits, by omega, by rw [hsrc]; exact hroom.disjoint⟩
      refine ⟨hsize.trans hn.symm, ?_, ?_, ?_⟩
      · rw [hn]
        intro i hi
        exact (memcpy_copies _ hapart hi).trans (by rw [hsrc])
      · rw [hn]
        intro x hx
        exact memcpy_outside _ hroom.fits hx
      · intro a ha
        obtain ⟨i, hi, rfl⟩ := List.mem_map.mp ha
        rw [List.mem_range] at hi
        rw [toNat_add_ofNat (by omega), hsrc]
        omega

end

/-- Reads of a file are clamped to it exactly if the sum of offset and size does not
wrap to a value within the file. -/
theorem read_clamped_iff (s : Fs) (node : Ref) (offset size buffer : BitVec 32)
    (hread : (s.deref node).read = .initrdRead)
    (hfile : (s.fileHeader (s.deref node).inode.toNat).offset.toNat +
      (s.fileHeader (s.deref node).inode.toNat).length.toNat ≤ 2 ^ 32)
    (hroom : Room ((s.fileHeader (s.deref node).inode.toNat).offset.toNat + offset.toNat)
      (clamped (s.fileHeader (s.deref node).inode.toNat).length offset size) buffer) :
    (∃ r, readFs s node offset size buffer = some r ∧
        Clamped (s.fileHeader (s.deref node).inode.toNat) s.mem offset size buffer r) ↔
      ¬ SumWraps (s.fileHeader (s.deref node).inode.toNat).length offset size := by
  have hcall : readFs s node offset size buffer =
      some (initrdRead s (s.deref node) offset size buffer) := by
    rw [readFs, hread]
  rw [hcall]
  constructor
  · rintro ⟨r, hr, hc⟩ hwrap
    obtain rfl := Option.some.inj hr
    have hret := hc.returned
    rw [initrdRead_within hwrap.1] at hret
    simp only [readSize_eq size hwrap.1, hwrap, ↓reduceIte] at hret
    have hsize := size.isLt
    have hlen := (s.fileHeader (s.deref node).inode.toNat).length.isLt
    obtain ⟨h1, h2, h3⟩ := hwrap
    unfold clamped at hret
    omega
  · intro hwrap
    exact ⟨_, rfl, read_clamped hfile hroom hwrap⟩

/-- A file of ten bytes at `0x2000`, its record at `0x1000`. -/
def tenBytes : FileHeader :=
  { FileHeader.zero with magic := initrdMagic, offset := 0x2000, length := 10, type := afile }

def blankNode : FsNode :=
  ⟨[], 0, 0, 0, 0, 0, 0, 0, .null, .null, .null, .null, .null, .null, 0⟩

def tenBytesLoaded : Fs where
  mem := fun x => if 0x1000 ≤ x ∧ x < 0x1058 then tenBytes.byte (x - 0x1000) else 0
  fileHeaders := 0x1000
  root := blankNode
  dev := blankNode
  rootNodes := fun _ => nodeOf tenBytes blankNode
  nnodes := 1
  versionNode := none

theorem read_clamped_middle :
    ∃ r, readFs tenBytesLoaded (.rootNode 0) 5 8 0x4000 = some r ∧
      Clamped (tenBytesLoaded.fileHeader 0) tenBytesLoaded.mem 5 8 0x4000 r :=
  (read_clamped_iff tenBytesLoaded (.rootNode 0) 5 8 0x4000 rfl (by decide +kernel)
    ⟨by decide +kernel, fun i j hi hj => by
      have hn : clamped (tenBytesLoaded.fileHeader 0).length 5 8 = 5 := by decide +kernel
      have hf : (tenBytesLoaded.fileHeader 0).offset.toNat = 8192 := by decide +kernel
      replace hi : i < 5 := hn ▸ hi
      replace hj : j < 5 := hn ▸ hj
      change 16384 + i ≠ (tenBytesLoaded.fileHeader 0).offset.toNat + 5 + j
      omega⟩).mpr (by decide +kernel)

/-- The sum of offset and size wraps to 4, which is within the file. -/
theorem read_runs_on :
    ¬ ∃ r, readFs tenBytesLoaded (.rootNode 0) 5 0xFFFFFFFF 0x4000 = some r ∧
      Clamped (tenBytesLoaded.fileHeader 0) tenBytesLoaded.mem 5 0xFFFFFFFF 0x4000 r := by
  rintro ⟨r, hr, hc⟩
  obtain rfl := Option.some.inj hr
  have hret := hc.returned
  revert hret
  decide +kernel

end Shigure.Initrd
