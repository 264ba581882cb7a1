import Mathlib.Data.List.Induction
import Shigure.Initrd.Builder

/-!
# What the builder has written

The records and the image as a function of the visits so far: what one call of
`process_entry` adds, and from it what a whole walk leaves.
-/

namespace Shigure.Initrd

open Libc

def Found.readable : Found → Bool
  | .file none => false
  | _ => true

def Visit.length (v : Visit) : BitVec 32 :=
  match v.found with
  | .file (some contents) => .ofNat 32 contents.length
  | _ => 0

def Visit.type (v : Visit) : BitVec 8 :=
  match v.found with
  | .directory => directory
  | .file _ => afile
  | .other => 0

def written (vs : List Visit) : Nat := (vs.map fun v => v.length.toNat).sum

def lastDir : List Visit → Option Nat
  | [] => none
  | v :: vs => ((lastDir vs).map (· + 1)).or (if v.type = directory then some 0 else none)

/-- The parent that `process_entry` finds for an entry after the visits `vs`. -/
def parentAfter (vs : List Visit) (level : Nat) : BitVec 32 :=
  if level > 1 then .ofNat 32 ((lastDir vs).getD 0) else 0

def recordAfter (vs : List Visit) (v : Visit) : FileHeader :=
  { setName FileHeader.zero v.path with
    magic := initrdMagic
    number := .ofNat 32 vs.length
    parentNumber := parentAfter vs v.level
    type := v.type
    length := v.length
    offset :=
      match v.found with
      | .file (some _) => .ofNat 32 (reserved + written vs)
      | _ => 0 }

/-- What the builder has after the visits `vs`, all of them successful. -/
structure Walked (vs : List Visit) (b : Builder) : Prop where
  fileCount : b.fileCount = vs.length
  unused : ∀ i, vs.length ≤ i → b.files i = .zero
  record : ∀ i v, vs[i]? = some v → b.files i = recordAfter (vs.take i) v
  pos : b.pos = reserved + written vs
  currentOffset : b.currentOffset = .ofNat 32 (reserved + written vs)
  contents : ∀ i path contents level, vs[i]? = some ⟨path, .file (some contents), level⟩ →
    ∀ k, k < contents.length % 2 ^ 32 →
      b.image (reserved + written (vs.take i) + k) = contents.getD k 0
  stored : b.stored = List.range vs.length
  data : ∀ q ∈ b.data, reserved ≤ q.1

theorem walked_started : Walked [] started where
  fileCount := rfl
  unused := fun _ _ => rfl
  record := by simp
  pos := rfl
  currentOffset := rfl
  contents := by simp
  stored := rfl
  data := by simp [started]

-- ---------------------------------------------------------------------------
-- The parent
-- ---------------------------------------------------------------------------

theorem lastDir_concat (vs : List Visit) (v : Visit) :
    lastDir (vs ++ [v]) = if v.type = directory then some vs.length else lastDir vs := by
  induction vs with
  | nil => simp [lastDir]
  | cons w vs ih =>
    rw [List.cons_append, lastDir, ih, lastDir]
    split
    · rfl
    · rfl

theorem written_concat (vs : List Visit) (v : Visit) :
    written (vs ++ [v]) = written vs + v.length.toNat := by
  simp [written]

theorem findParent_eq {files : Nat → FileHeader} (vs : List Visit)
    (htype : ∀ i v, vs[i]? = some v → (files i).type = v.type)
    (hnumber : ∀ i v, vs[i]? = some v → (files i).number = .ofNat 32 i) (level : Nat) :
    findParent files level vs.length =
      if level > 1 then (lastDir vs).map (BitVec.ofNat 32) else none := by
  induction vs using List.reverseRecOn with
  | nil => simp [findParent, lastDir]
  | append_singleton vs v ih =>
    have hv : (vs ++ [v])[vs.length]? = some v := by simp
    have hold : ∀ (i : Nat) w, vs[i]? = some w → (vs ++ [v])[i]? = some w := by
      intro i w hw
      rw [List.getElem?_append_left (List.getElem?_eq_some_iff.mp hw).1, hw]
    rw [List.length_append, List.length_singleton, findParent, htype _ v hv, hnumber _ v hv,
      lastDir_concat, ih (fun i w hw => htype i w (hold i w hw))
        fun i w hw => hnumber i w (hold i w hw)]
    by_cases hl : level > 1
    · simp only [hl, and_true, ↓reduceIte]
      split <;> rfl
    · simp [hl]

theorem Walked.findParent (h : Walked vs b) (level : Nat) :
    findParent b.files level b.fileCount =
      if level > 1 then (lastDir vs).map (BitVec.ofNat 32) else none := by
  rw [h.fileCount]
  apply findParent_eq
  · intro i v hv
    rw [h.record i v hv]
    rfl
  · intro i v hv
    rw [h.record i v hv, recordAfter, List.length_take_of_le
      (Nat.le_of_lt (List.getElem?_eq_some_iff.mp hv).1)]

-- ---------------------------------------------------------------------------
-- One visit
-- ---------------------------------------------------------------------------

def Visit.putContents (v : Visit) (image : Mem) (pos : Nat) : Mem :=
  match v.found with
  | .file (some contents) => image.store pos (contents.take v.length.toNat)
  | _ => image

theorem Visit.putContents_below (v : Visit) (image : Mem) (h : x < pos) :
    v.putContents image pos x = image x := by
  obtain ⟨path, found, level⟩ := v
  match found with
  | .file (some _) => exact Mem.store_outside _ _ (Or.inl h)
  | .file none => rfl
  | .directory => rfl
  | .other => rfl

def Visit.place (v : Visit) (pos : Nat) : List (Nat × Nat) :=
  match v.found with
  | .file (some _) => [(pos, v.length.toNat)]
  | _ => []

theorem Visit.place_pos (v : Visit) (h : q ∈ v.place pos) : q.1 = pos := by
  unfold place at h
  split at h
  · rw [List.mem_singleton.mp h]
  · cases h

theorem Walked.processEntry_eq (h : Walked vs b) (hcount : vs.length ≤ initrdMaxFiles)
    (hread : v.found.readable) :
    (processEntry v b).1 = 0 ∧
      (processEntry v b).2.files =
        (fun i => if i = vs.length then recordAfter vs v else b.files i) ∧
      (processEntry v b).2.fileCount = vs.length + 1 ∧
      (processEntry v b).2.pos = b.pos + v.length.toNat ∧
      (processEntry v b).2.currentOffset = b.currentOffset + v.length ∧
      (processEntry v b).2.stored = b.stored ++ [vs.length] ∧
      (processEntry v b).2.image = v.putContents b.image b.pos ∧
      (processEntry v b).2.data = b.data ++ v.place b.pos := by
  have hold := h.unused vs.length (Nat.le_refl _)
  have hparent := h.findParent v.level
  have hoff := h.currentOffset
  have hroom : ¬ b.fileCount > initrdMaxFiles := by
    rw [h.fileCount]
    omega
  obtain ⟨path, found, level⟩ := v
  unfold processEntry
  rw [if_neg hroom, hparent, h.fileCount, hold]
  have hpar : (if level = 0 then 0
      else (if level > 1 then (lastDir vs).map (BitVec.ofNat 32) else none).getD
        FileHeader.zero.parentNumber) = parentAfter vs level := by
    unfold parentAfter
    by_cases hl : level > 1
    · rw [if_neg (by omega), if_pos hl, if_pos hl]
      cases lastDir vs <;> rfl
    · rw [if_neg hl, if_neg hl]
      split <;> rfl
  simp only [hpar]
  cases found with
  | directory => simp [recordAfter, setName, Visit.type, Visit.length, Visit.putContents, Visit.place]
  | file contents =>
    cases contents with
    | none => cases hread
    | some contents => simp [recordAfter, setName, Visit.type, Visit.length, Visit.putContents, Visit.place,
      hoff]
  | other => simp [recordAfter, setName, Visit.type, Visit.length, Visit.putContents, Visit.place,
    FileHeader.zero]

theorem written_take_add_le (vs : List Visit) (h : vs[i]? = some v) :
    written (vs.take i) + v.length.toNat ≤ written vs := by
  induction vs generalizing i with
  | nil => cases h
  | cons w vs ih =>
    cases i with
    | zero =>
      obtain rfl := Option.some.inj h
      simp [written]
    | succ i =>
      have hle := ih h
      simp only [written, List.take_succ_cons, List.map_cons, List.sum_cons] at hle ⊢
      omega

theorem getElem?_concat_cases {vs : List α} (h : (vs ++ [w])[i]? = some v) :
    vs[i]? = some v ∨ i = vs.length ∧ v = w := by
  obtain hi | hi := Nat.lt_or_ge i vs.length
  · left
    rwa [List.getElem?_append_left hi] at h
  · have hlen := (List.getElem?_eq_some_iff.mp h).1
    rw [List.length_append, List.length_singleton] at hlen
    obtain rfl : i = vs.length := by omega
    rw [List.getElem?_concat_length] at h
    exact Or.inr ⟨rfl, (Option.some.inj h).symm⟩

theorem Walked.step (h : Walked vs b) (hcount : vs.length ≤ initrdMaxFiles)
    (hread : v.found.readable) :
    (processEntry v b).1 = 0 ∧ Walked (vs ++ [v]) (processEntry v b).2 := by
  obtain ⟨hstatus, hfiles, hfc, hpos, hoff, hstored, himage, hdata⟩ :=
    h.processEntry_eq hcount hread
  have htake : ∀ i, i ≤ vs.length → (vs ++ [v]).take i = vs.take i :=
    fun i hi => List.take_append_of_le_length hi
  refine ⟨hstatus, ⟨?_, ?_, ?_, ?_, ?_, ?_, ?_, ?_⟩⟩
  · rw [hfc, List.length_append, List.length_singleton]
  · intro i hi
    rw [List.length_append, List.length_singleton] at hi
    simp only [hfiles]
    rw [if_neg (by omega), h.unused i (by omega)]
  · intro i w hw
    simp only [hfiles]
    obtain hold | ⟨rfl, rfl⟩ := getElem?_concat_cases hw
    · have hi := (List.getElem?_eq_some_iff.mp hold).1
      rw [if_neg (by omega), htake i (by omega), h.record i w hold]
    · rw [if_pos rfl, htake _ (Nat.le_refl _), List.take_length]
  · rw [hpos, h.pos, written_concat, Nat.add_assoc]
  · rw [hoff, h.currentOffset, written_concat, ← Nat.add_assoc, BitVec.ofNat_add (reserved + _),
      BitVec.ofNat_toNat, BitVec.setWidth_eq]
  · intro i path contents level hw k hk
    rw [himage]
    obtain hold | ⟨rfl, rfl⟩ := getElem?_concat_cases hw
    · have hi := (List.getElem?_eq_some_iff.mp hold).1
      have hle := written_take_add_le vs hold
      simp only [Visit.length, BitVec.toNat_ofNat] at hle
      rw [htake i (by omega), Visit.putContents_below _ _ (by rw [h.pos]; omega)]
      exact h.contents i path contents level hold k hk
    · rw [htake _ (Nat.le_refl _), List.take_length, ← h.pos]
      simp only [Visit.putContents, Visit.length, BitVec.toNat_ofNat]
      have hlt : k < (contents.take (contents.length % 2 ^ 32)).length := by
        rw [List.length_take]
        have := Nat.mod_le contents.length (2 ^ 32)
        omega
      rw [Mem.store_inside _ _ hlt, List.getD_eq_getElem?_getD, List.getElem?_take_of_lt hk,
        List.getD_eq_getElem?_getD]
  · rw [hstored, h.stored, List.length_append, List.length_singleton, List.range_succ]
  · intro q hq
    rw [hdata] at hq
    obtain hq | hq := List.mem_append.mp hq
    · exact h.data q hq
    · rw [v.place_pos hq, h.pos]
      omega

theorem Walked.nftw (h : Walked vs b) (hcount : vs.length + us.length ≤ initrdMaxFiles + 1)
    (hread : ∀ u ∈ us, u.found.readable) : Walked (vs ++ us) (nftw us b) := by
  induction us generalizing vs b with
  | nil => simpa [Initrd.nftw] using h
  | cons u us ih =>
    rw [List.length_cons] at hcount
    obtain ⟨hstatus, hstep⟩ := h.step (by omega) (hread u (by simp))
    have := ih hstep (by simp; omega) fun w hw => hread w (by simp [hw])
    rw [Initrd.nftw]
    simpa [hstatus] using this

-- ---------------------------------------------------------------------------
-- The table
-- ---------------------------------------------------------------------------

theorem tableBytes_length (files : Nat → FileHeader) (n : Nat) :
    (tableBytes files n).length = sizeofFileHeader * n := by
  simp [tableBytes]

theorem finish_image (b : Builder) :
    (finish b).image =
      (b.image.store 0 (Mem.wordBytes (.ofNat 32 b.fileCount))).store sizeofHeader
        (tableBytes b.files b.fileCount) :=
  rfl

theorem finish_count_byte (b : Builder) (hi : i < 4) :
    (finish b).image i = (Mem.wordBytes (.ofNat 32 b.fileCount)).getD i 0 := by
  have h4 : sizeofHeader = 4 := rfl
  have hin := Mem.store_inside (a := 0) b.image (Mem.wordBytes (.ofNat 32 b.fileCount))
    (by simpa [Mem.wordBytes] using hi)
  rw [Nat.zero_add] at hin
  rw [finish_image, Mem.store_outside _ _ (by omega), hin]

theorem finish_nfiles (b : Builder) : (finish b).image.read32 0 = b.fileCount % 2 ^ 32 := by
  have h : (finish b).image.read32 0 = (BitVec.ofNat 32 b.fileCount).toNat :=
    Mem.read32_of_bytes fun i hi => by rw [Nat.zero_add, finish_count_byte b hi]
  rw [h, BitVec.toNat_ofNat]

theorem finish_byte (b : Builder) (hi : i < b.fileCount) (hk : k < sizeofFileHeader) :
    (finish b).image (sizeofHeader + sizeofFileHeader * i + k) = (b.files i).byte k := by
  have hlt : sizeofFileHeader * i + k < sizeofFileHeader * b.fileCount := by
    have := Nat.mul_le_mul_left sizeofFileHeader hi
    rw [Nat.mul_succ] at this
    omega
  rw [finish_image, Nat.add_assoc, Mem.store_inside _ _ (by rw [tableBytes_length]; exact hlt)]
  have hdiv : (sizeofFileHeader * i + k) / sizeofFileHeader = i := by
    rw [Nat.mul_add_div (by decide), Nat.div_eq_of_lt hk, Nat.add_zero]
  have hmod : (sizeofFileHeader * i + k) % sizeofFileHeader = k := by
    rw [Nat.mul_add_mod, Nat.mod_eq_of_lt hk]
  simp [tableBytes, hlt, hdiv, hmod]

theorem finish_record (b : Builder) (hi : i < b.fileCount) :
    fileHeaderAt (finish b).image (sizeofHeader + sizeofFileHeader * i) = b.files i :=
  fileHeaderAt_byte _ fun _ hk => finish_byte b hi hk

theorem finish_contents (b : Builder)
    (hx : sizeofHeader + sizeofFileHeader * b.fileCount ≤ x) : (finish b).image x = b.image x := by
  have h4 : sizeofHeader = 4 := rfl
  rw [finish_image, Mem.store_outside _ _ (by rw [tableBytes_length]; omega),
    Mem.store_outside _ _ (by simp only [Mem.wordBytes, List.length_cons, List.length_nil]; omega)]

-- ---------------------------------------------------------------------------
-- Walks that stop
-- ---------------------------------------------------------------------------

theorem processEntry_cases (v : Visit) (b : Builder) :
    (processEntry v b).1 ≠ 0 ∧ (processEntry v b).2.fileCount = b.fileCount ∨
      (processEntry v b).1 = 0 ∧ (processEntry v b).2.fileCount = b.fileCount + 1 ∧
        v.found.readable ∧ b.fileCount ≤ initrdMaxFiles := by
  unfold processEntry
  by_cases hc : b.fileCount > initrdMaxFiles
  · rw [if_pos hc]
    exact Or.inl ⟨Nat.one_ne_zero, rfl⟩
  · rw [if_neg hc]
    cases hf : v.found with
    | directory => exact Or.inr ⟨rfl, rfl, rfl, by omega⟩
    | file contents =>
      cases contents with
      | none => exact Or.inl ⟨Nat.one_ne_zero, rfl⟩
      | some contents => exact Or.inr ⟨rfl, rfl, rfl, by omega⟩
    | other => exact Or.inr ⟨rfl, rfl, rfl, by omega⟩

/-- A walk has counted all its entries only if nothing has stopped it. -/
theorem nftw_complete (us : List Visit) (b : Builder)
    (h : (nftw us b).fileCount = b.fileCount + us.length) :
    (∀ u ∈ us, u.found.readable) ∧ (us = [] ∨ b.fileCount + us.length ≤ initrdMaxFiles + 1) := by
  induction us generalizing b with
  | nil => simp
  | cons u us ih =>
    rw [nftw, List.length_cons] at h
    obtain ⟨hs, hc⟩ | ⟨hs, hc, hread, hroom⟩ := processEntry_cases u b
    · simp only [hs, ↓reduceIte, hc] at h
      omega
    · simp only [hs, ↓reduceIte] at h
      obtain ⟨hall, hlen⟩ := ih (processEntry u b).2 (by omega)
      refine ⟨?_, Or.inr ?_⟩
      · intro w hw
        obtain rfl | hw := List.mem_cons.mp hw
        · exact hread
        · exact hall w hw
      · rw [List.length_cons]
        obtain rfl | hlen := hlen
        · simpa using hroom
        · omega

end Shigure.Initrd
