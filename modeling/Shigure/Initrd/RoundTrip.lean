import Shigure.Initrd.Built
import Shigure.Initrd.Lookup
import Shigure.Initrd.Reading

/-!
# Round trip

The image of a tree, loaded, gives the tree back: its listing, its nodes and the
bytes of its files.
-/

namespace Shigure.Initrd

open Libc

-- ---------------------------------------------------------------------------
-- Names
-- ---------------------------------------------------------------------------

/-- The path below `initrd/`; the root's own is empty. -/
def Visit.name (v : Visit) : List (BitVec 8) := v.path.drop 7

theorem Dir.noNul_visits (d : Dir) (path : List (BitVec 8)) (level : Nat) (hpath : 0 ∉ path) :
    ∀ v ∈ d.visits path level, 0 ∉ v.path := by
  have hjoin : ∀ name : Name, 0 ∉ path ++ slash :: name.bytes := by
    intro name h
    obtain h | h := List.mem_append.mp h
    · exact hpath h
    · obtain h | h := List.mem_cons.mp h
      · exact absurd h (by decide)
      · exact name.noNul h
  induction d generalizing path level with
  | nil => simp [visits]
  | file name contents rest ih =>
    rintro v (_ | ⟨_, hv⟩)
    · exact hjoin name
    · exact ih path level hpath hjoin v hv
  | dir name entries rest ihe ihr =>
    intro v hv
    rw [visits, List.cons_append, List.mem_cons, List.mem_append] at hv
    obtain rfl | hv | hv := hv
    · exact hjoin name
    · apply ihe (path ++ slash :: name.bytes) (level + 1) (hjoin name) _ v hv
      intro other h
      obtain h | h := List.mem_append.mp h
      · exact hjoin name h
      · obtain h | h := List.mem_cons.mp h
        · exact absurd h (by decide)
        · exact other.noNul h
    · exact ihr path level hpath hjoin v hv
  | other name rest ih =>
    rintro v (_ | ⟨_, hv⟩)
    · exact hjoin name
    · exact ih path level hpath hjoin v hv

theorem noNul_name (h : v ∈ visits d) : 0 ∉ v.name := by
  have hpath : 0 ∉ v.path := by
    obtain rfl | h := List.mem_cons.mp h
    · decide
    · exact d.noNul_visits _ _ (by decide) v h
  exact fun h0 => hpath (List.mem_of_mem_drop h0)

theorem cString_strncpy {s : List (BitVec 8)} (h : 0 ∉ s) (hlen : s.length ≤ 63) :
    cString (strncpy (List.replicate 64 0) s 63) = s := by
  have hpad : (List.range 63).map (fun i => s.getD i 0) =
      s ++ List.replicate (63 - s.length) 0 := by
    apply List.ext_getElem
    · simp
      omega
    · intro i h1 h2
      simp only [List.getElem_map, List.getElem_range, List.getElem_append,
        List.getElem_replicate, List.getD_eq_getElem?_getD]
      split
      · rename_i hi
        rw [List.getElem?_eq_getElem hi, Option.getD_some]
      · rename_i hi
        rw [List.getElem?_eq_none (by omega), Option.getD_none]
  have htail : strncpy (List.replicate 64 0) s 63 =
      s ++ 0 :: List.replicate (63 - s.length) 0 := by
    have hdrop : (List.replicate 64 (0 : BitVec 8)).drop 63 = [0] := rfl
    rw [strncpy, cString_of_noNul h, hpad, hdrop, List.append_assoc, ← List.replicate_succ,
      List.replicate_succ']
  rw [htail, cString_of_nul h]

-- ---------------------------------------------------------------------------
-- Contents
-- ---------------------------------------------------------------------------

def Visit.bytes (v : Visit) : List (BitVec 8) :=
  match v.found with
  | .file (some contents) => contents
  | _ => []

def contentsSize (vs : List Visit) : Nat := (vs.map fun v => v.bytes.length).sum

/-- The length of the image. The seek behind the table does not extend it; contents
do. -/
def imageSize (d : Dir) : Nat :=
  if contentsSize (visits d) = 0 then sizeofHeader + sizeofFileHeader * (visits d).length
  else reserved + contentsSize (visits d)

theorem Visit.length_eq (v : Visit) : v.length = .ofNat 32 v.bytes.length := by
  obtain ⟨path, found, level⟩ := v
  match found with
  | .file (some _) => rfl
  | .file none => rfl
  | .directory => rfl
  | .other => rfl

theorem bytes_length_le {vs : List Visit} (h : v ∈ vs) : v.bytes.length ≤ contentsSize vs := by
  induction vs with
  | nil => cases h
  | cons w vs ih =>
    simp only [contentsSize, List.map_cons, List.sum_cons] at ih ⊢
    obtain rfl | h := List.mem_cons.mp h
    · omega
    · have := ih h
      omega

theorem written_eq (h : contentsSize vs < 2 ^ 32) : written vs = contentsSize vs := by
  unfold written contentsSize
  congr 1
  apply List.map_congr_left
  intro v hv
  have := bytes_length_le hv
  rw [v.length_eq, BitVec.toNat_ofNat, Nat.mod_eq_of_lt (by omega)]

-- ---------------------------------------------------------------------------
-- The loaded image
-- ---------------------------------------------------------------------------

/-- A tree that the format can hold: few entries, all readable, with short names that
differ and leave `dev` free, and not too long altogether. -/
structure Fits (d : Dir) : Prop where
  count : (visits d).length ≤ initrdMaxFiles
  readable : ∀ v ∈ visits d, v.found.readable
  short : ∀ v ∈ visits d, v.name.length ≤ 63
  distinct : ((visits d).map Visit.name).Nodup
  noDev : ∀ v ∈ visits d, v.name ≠ text "dev"
  size : imageSize d < 2 ^ 32

structure ImageAt (d : Dir) (addr : Nat) (m : Mem) : Prop where
  room : addr + imageSize d ≤ 2 ^ 32
  image : ∀ x, x < imageSize d → m (addr + x) = (main 2 true d).2.image x

section
variable {d : Dir} {addr : Nat} {m : Mem} {i : Nat} {v : Visit}

theorem Fits.walked (h : Fits d) : Walked (visits d) (nftw (visits d) started) :=
  walked_visits (Nat.le_succ_of_le h.count) h.readable

theorem Fits.contents_lt (h : Fits d) : contentsSize (visits d) < 2 ^ 32 := by
  have hs := h.size
  unfold imageSize at hs
  split at hs <;> omega

theorem Fits.length (h : Fits d) (hv : v ∈ visits d) : v.length.toNat = v.bytes.length := by
  have := bytes_length_le hv
  have := h.contents_lt
  rw [v.length_eq, BitVec.toNat_ofNat, Nat.mod_eq_of_lt (by omega)]

theorem Fits.table_le (h : Fits d) : sizeofHeader + sizeofFileHeader * (visits d).length ≤ reserved :=
  Nat.add_le_add_left (Nat.mul_le_mul_left sizeofFileHeader h.count) _

theorem Fits.table_le_size (h : Fits d) :
    sizeofHeader + sizeofFileHeader * (visits d).length ≤ imageSize d := by
  have := h.table_le
  unfold imageSize
  split <;> omega

theorem ImageAt.nfiles (hi : ImageAt d addr m) (h : Fits d) : m.read32 addr = (visits d).length := by
  have h4 : sizeofHeader = 4 := rfl
  have hmax : initrdMaxFiles = 128 := rfl
  have hsize := h.table_le_size
  have hread : m.read32 addr = (BitVec.ofNat 32 (visits d).length).toNat := by
    apply Mem.read32_of_bytes
    intro k hk
    rw [hi.image k (by omega), ← h.walked.fileCount]
    exact finish_count_byte _ hk
  have := h.count
  rw [hread, BitVec.toNat_ofNat, Nat.mod_eq_of_lt (by omega)]

theorem ImageAt.header (hi : ImageAt d addr m) (h : Fits d) (hv : (visits d)[i]? = some v) :
    imageHeader addr m i = recordAfter ((visits d).take i) v := by
  have hlt := (List.getElem?_eq_some_iff.mp hv).1
  have hsize := h.table_le_size
  have hmul := Nat.mul_le_mul_left sizeofFileHeader hlt
  rw [Nat.mul_succ] at hmul
  rw [← h.walked.record i v hv]
  apply fileHeaderAt_byte
  intro k hk
  rw [Nat.add_assoc, Nat.add_assoc, hi.image _ (by omega), ← Nat.add_assoc]
  exact finish_byte _ (by rw [h.walked.fileCount]; exact hlt) hk

theorem ImageAt.contents (hi : ImageAt d addr m) (h : Fits d) (hv : (visits d)[i]? = some v)
    (hk : k < v.bytes.length) :
    m (addr + (reserved + written ((visits d).take i) + k)) = v.bytes.getD k 0 := by
  have hmem := List.mem_of_getElem? hv
  have hlen := h.length hmem
  have hle := written_take_add_le (visits d) hv
  have hwritten := written_eq h.contents_lt
  have hne : contentsSize (visits d) ≠ 0 := by
    have := bytes_length_le hmem
    omega
  have hsize : imageSize d = reserved + contentsSize (visits d) := if_neg hne
  have htable := h.table_le
  rw [hi.image _ (by omega)]
  have hout := finish_contents (nftw (visits d) started)
    (x := reserved + written ((visits d).take i) + k) (by rw [h.walked.fileCount]; omega)
  obtain ⟨path, found, level⟩ := v
  match found with
  | .file (some contents) =>
    have hmod : contents.length % 2 ^ 32 = contents.length := by
      rw [← BitVec.toNat_ofNat]
      exact hlen
    exact hout.trans (h.walked.contents i path contents level hv k (by rw [hmod]; exact hk))
  | .file none => exact absurd hk (Nat.not_lt_zero _)
  | .directory => exact absurd hk (Nat.not_lt_zero _)
  | .other => exact absurd hk (Nat.not_lt_zero _)

theorem ImageAt.headerName (hi : ImageAt d addr m) (h : Fits d) (hv : (visits d)[i]? = some v) :
    headerName addr m i = v.name := by
  have hmem := List.mem_of_getElem? hv
  rw [Initrd.headerName, hi.header h hv]
  exact cString_strncpy (noNul_name hmem) (h.short v hmem)

theorem ImageAt.magic (hi : ImageAt d addr m) (h : Fits d) (hv : (visits d)[i]? = some v) :
    (imageHeader addr m i).magic = initrdMagic := by
  rw [hi.header h hv]
  rfl

theorem getElem?_visits (hlt : i < (visits d).length) : ∃ v, (visits d)[i]? = some v :=
  ⟨_, List.getElem?_eq_getElem hlt⟩

theorem ImageAt.namesDiffer (hi : ImageAt d addr m) (h : Fits d) : NamesDiffer addr m := by
  constructor
  · intro i hlt
    rw [hi.nfiles h] at hlt
    obtain ⟨v, hv⟩ := getElem?_visits hlt
    rw [hi.headerName h hv]
    exact h.noDev v (List.mem_of_getElem? hv)
  · intro i j hij hlt
    rw [hi.nfiles h] at hlt
    obtain ⟨v, hv⟩ := getElem?_visits (Nat.lt_trans hij hlt)
    obtain ⟨w, hw⟩ := getElem?_visits hlt
    rw [hi.headerName h hv, hi.headerName h hw]
    have hne := List.pairwise_iff_getElem.mp h.distinct i j (by rw [List.length_map]; omega)
      (by rw [List.length_map]; exact hlt) hij
    obtain ⟨_, hv⟩ := List.getElem?_eq_some_iff.mp hv
    obtain ⟨_, hw⟩ := List.getElem?_eq_some_iff.mp hw
    simpa [hv, hw] using hne

/-- Every record has the magic number, no two have one name and none is `dev`. -/
theorem ImageAt.onlyValid (hi : ImageAt d addr m) (h : Fits d) (prior : Prior) :
    OnlyValid addr m prior := by
  refine onlyValid_of_all prior ?_ (hi.namesDiffer h)
  intro i hlt
  rw [hi.nfiles h] at hlt
  obtain ⟨v, hv⟩ := getElem?_visits hlt
  exact hi.magic h hv

theorem ImageAt.valid (hi : ImageAt d addr m) (h : Fits d)
    (hv : (visits d)[i]? = some v) : i ∈ validRecords addr m := by
  have hlt := (List.getElem?_eq_some_iff.mp hv).1
  exact mem_validRecords.mpr ⟨by rw [hi.nfiles h]; exact hlt, hi.magic h hv⟩

theorem recordAfter_offset (vs : List Visit) (hk : k < v.bytes.length) :
    (recordAfter vs v).offset = .ofNat 32 (reserved + written vs) := by
  obtain ⟨path, found, level⟩ := v
  match found with
  | .file (some _) => rfl
  | .file none => exact absurd hk (Nat.not_lt_zero _)
  | .directory => exact absurd hk (Nat.not_lt_zero _)
  | .other => exact absurd hk (Nat.not_lt_zero _)

theorem ImageAt.loadedContents (hi : ImageAt d addr m) (h : Fits d) (prior : Prior)
    (hv : (visits d)[i]? = some v) (hk : k < v.bytes.length) :
    let s := initrdInitialize addr m prior
    (s.fileHeader i).offset.toNat + v.bytes.length ≤ 2 ^ 32 ∧
      s.mem ((s.fileHeader i).offset.toNat + k) = v.bytes.getD k 0 := by
  have hl := initialize_loaded addr m prior
  have hvalid := mem_validRecords.mp (hi.valid h hv)
  have hmem := List.mem_of_getElem? hv
  have hle := written_take_add_le (visits d) hv
  rw [h.length hmem, written_eq h.contents_lt] at hle
  have hne : contentsSize (visits d) ≠ 0 := by
    have := bytes_length_le hmem
    omega
  have hsize : imageSize d = reserved + contentsSize (visits d) := if_neg hne
  have hroom := hi.room
  have hoff : ((initrdInitialize addr m prior).fileHeader i).offset.toNat =
      addr + (reserved + written ((visits d).take i)) := by
    rw [hl.header, if_pos hvalid, hi.header h hv]
    simp only [recordAfter_offset _ hk]
    rw [BitVec.toNat_add, BitVec.toNat_ofNat, BitVec.toNat_ofNat]
    omega
  have htable := h.table_le
  simp only [hoff]
  refine ⟨by omega, ?_⟩
  rw [hl.outside _ (Or.inr (by rw [hi.nfiles h]; omega)), Nat.add_assoc, hi.contents h hv hk]

-- ---------------------------------------------------------------------------
-- The tree given back
-- ---------------------------------------------------------------------------

/-- The file system lists `dev` and the entries in the order of the table, finds each by
its path with its kind and length, and reads each byte for byte. -/
structure GivesBack (d : Dir) (s : Fs) : Prop where
  dev : readdirFs s .initrdRoot 0 = some ⟨text "dev", 0⟩
  listed : ∀ k, k + 1 < 2 ^ 32 → readdirFs s .initrdRoot (.ofNat 32 (k + 1)) =
    (visits d)[k]?.map fun v => ⟨v.name, .ofNat 32 k⟩
  found : ∀ v ∈ visits d, ∃ node, finddirFs s .initrdRoot v.name = some node ∧
    (v.found = .directory → (s.deref node).flags = fsDirectory) ∧
    (∀ contents, v.found = .file contents → (s.deref node).flags = fsFile) ∧
    (s.deref node).length.toNat = v.bytes.length ∧
    ∀ offset size buffer : BitVec 32, offset.toNat + size.toNat < 2 ^ 32 →
      Room ((s.fileHeader (s.deref node).inode.toNat).offset.toNat + offset.toNat)
        (min size.toNat (v.bytes.length - offset.toNat)) buffer →
      ∃ r, readFs s node offset size buffer = some r ∧
        r.returned.toNat = min size.toNat (v.bytes.length - offset.toNat) ∧
        ∀ k, k < min size.toNat (v.bytes.length - offset.toNat) →
          r.mem (buffer.toNat + k) = v.bytes.getD (offset.toNat + k) 0

theorem ImageAt.listed (hi : ImageAt d addr m) (h : Fits d) (prior : Prior) (k : Nat)
    (hk : k + 1 < 2 ^ 32) :
    readdirFs (initrdInitialize addr m prior) .initrdRoot (.ofNat 32 (k + 1)) =
      (visits d)[k]?.map fun v => ⟨v.name, .ofNat 32 k⟩ := by
  have hl := initialize_loaded addr m prior
  rw [hl.readdirFs, readdir_node _ hk, hl.nnodes, hi.nfiles h]
  split
  · rename_i hlt
    obtain ⟨v, hv⟩ := getElem?_visits hlt
    have hvalid := hi.valid h hv
    rw [hv, hl.valid_name hvalid, hl.valid_node hvalid, hi.headerName h hv, hi.header h hv]
    simp [nodeOf, recordAfter, List.length_take_of_le (Nat.le_of_lt hlt)]
  · rename_i hge
    rw [List.getElem?_eq_none (by omega)]
    rfl

theorem ImageAt.finddir (hi : ImageAt d addr m) (h : Fits d) (prior : Prior)
    (hv : (visits d)[i]? = some v) :
    finddirFs (initrdInitialize addr m prior) .initrdRoot v.name = some (.rootNode i) := by
  have hl := initialize_loaded addr m prior
  have hlt := (List.getElem?_eq_some_iff.mp hv).1
  have hmem := List.mem_of_getElem? hv
  have hdiffer := hi.namesDiffer h
  have hname := hi.headerName h hv
  rw [hl.finddirFs, finddir_node, cString_of_noNul (noNul_name hmem), cString_dev, hl.nnodes,
    hi.nfiles h, hl.valid_name (hi.valid h hv), hname]
  refine ⟨h.noDev v hmem, hlt, rfl, ?_⟩
  intro j hj
  obtain ⟨w, hw⟩ := getElem?_visits (Nat.lt_trans hj hlt)
  rw [hl.valid_name (hi.valid h hw), ← hname]
  exact (hdiffer.differ j i hj (by rw [hi.nfiles h]; exact hlt)).symm

theorem ImageAt.node (hi : ImageAt d addr m) (h : Fits d) (prior : Prior)
    (hv : (visits d)[i]? = some v) :
    (initrdInitialize addr m prior).rootNodes i =
      nodeOf (recordAfter ((visits d).take i) v) (prior.rootNodes i) := by
  rw [(initialize_loaded addr m prior).valid_node (hi.valid h hv), hi.header h hv]

theorem ImageAt.inode (hi : ImageAt d addr m) (h : Fits d) (prior : Prior)
    (hv : (visits d)[i]? = some v) :
    ((initrdInitialize addr m prior).rootNodes i).inode.toNat = i := by
  have hlt := (List.getElem?_eq_some_iff.mp hv).1
  have hmax : initrdMaxFiles = 128 := rfl
  have := h.count
  rw [hi.node h prior hv]
  simp only [nodeOf, recordAfter, List.length_take_of_le (Nat.le_of_lt hlt), BitVec.toNat_ofNat]
  omega

theorem ImageAt.reads (hi : ImageAt d addr m) (h : Fits d) (prior : Prior)
    (hv : (visits d)[i]? = some v) (offset size buffer : BitVec 32)
    (hsum : offset.toNat + size.toNat < 2 ^ 32)
    (hroom : Room (((initrdInitialize addr m prior).fileHeader i).offset.toNat + offset.toNat)
      (min size.toNat (v.bytes.length - offset.toNat)) buffer) :
    ∃ r, readFs (initrdInitialize addr m prior) (.rootNode i) offset size buffer = some r ∧
      r.returned.toNat = min size.toNat (v.bytes.length - offset.toNat) ∧
      ∀ k, k < min size.toNat (v.bytes.length - offset.toNat) →
        r.mem (buffer.toNat + k) = v.bytes.getD (offset.toNat + k) 0 := by
  have hl := initialize_loaded addr m prior
  have hmem := List.mem_of_getElem? hv
  have hinode := hi.inode h prior hv
  have hcontents : ∀ k, k < v.bytes.length → _ := fun k hk => hi.loadedContents h prior hv hk
  have hlength : ((initrdInitialize addr m prior).fileHeader i).length.toNat = v.bytes.length := by
    rw [hl.header, if_pos (mem_validRecords.mp (hi.valid h hv)), hi.header h hv, ← h.length hmem]
    rfl
  have hread : ((initrdInitialize addr m prior).rootNodes i).read = .initrdRead := by
    rw [hi.node h prior hv]
    rfl
  generalize initrdInitialize addr m prior = s at *
  have hclamp : clamped (s.fileHeader i).length offset size =
      min size.toNat (v.bytes.length - offset.toNat) := by
    rw [clamped, hlength]
  have hfile : (s.fileHeader i).offset.toNat + (s.fileHeader i).length.toNat ≤ 2 ^ 32 := by
    rw [hlength]
    obtain h0 | hpos := Nat.eq_zero_or_pos v.bytes.length
    · have := (s.fileHeader i).offset.isLt
      omega
    · exact (hcontents 0 hpos).1
  have hc : Clamped (s.fileHeader i) s.mem offset size buffer
      (initrdRead s (s.rootNodes i) offset size buffer) := by
    have := @read_clamped s (s.rootNodes i) offset size buffer
    rw [hinode] at this
    exact this hfile (by rw [hclamp]; exact hroom) (by unfold SumWraps; omega)
  refine ⟨_, ?_, hc.returned.trans hclamp, ?_⟩
  · rw [readFs, Fs.deref, hread]
  · intro k hk
    rw [hc.copied k (by rw [hclamp]; exact hk), Nat.add_assoc]
    exact (hcontents (offset.toNat + k) (by omega)).2

end

/-- The image that the builder writes for a tree gives the tree back, wherever it is
loaded. -/
theorem image_round_trip (d : Dir) (addr : Nat) (m : Mem) (prior : Prior) (h : Fits d)
    (hi : ImageAt d addr m) : GivesBack d (initrdInitialize addr m prior) := by
  have hl := initialize_loaded addr m prior
  refine ⟨?_, hi.listed h prior, ?_⟩
  · rw [hl.readdirFs, readdir_dev]
  · intro v hmem
    obtain ⟨i, hv⟩ := List.getElem?_of_mem hmem
    refine ⟨.rootNode i, hi.finddir h prior hv, ?_, ?_, ?_, ?_⟩
    · intro hf
      rw [Fs.deref, hi.node h prior hv]
      simp [nodeOf, recordAfter, Visit.type, hf, directory, afile]
    · intro contents hf
      rw [Fs.deref, hi.node h prior hv]
      simp [nodeOf, recordAfter, Visit.type, hf]
    · rw [Fs.deref, hi.node h prior hv]
      exact h.length hmem
    · intro offset size buffer hsum hroom
      rw [Fs.deref, hi.inode h prior hv] at hroom
      exact hi.reads h prior hv offset size buffer hsum hroom

def oneFile : Dir := .dir nameA (.file nameB (some [0x68, 0x69]) .nil) .nil

theorem image_round_trip_oneFile :
    let m : Mem := fun x => (main 2 true oneFile).2.image (x - 0x200000)
    Fits oneFile ∧ ImageAt oneFile 0x200000 m ∧
      GivesBack oneFile (initrdInitialize 0x200000 m ⟨blankNode, blankNode, fun _ => blankNode⟩) := by
  have hfits : Fits oneFile :=
    ⟨by decide, by decide, by decide, by decide, by decide, by decide⟩
  have hat : ImageAt oneFile 0x200000 fun x => (main 2 true oneFile).2.image (x - 0x200000) :=
    ⟨by decide, fun x _ => by simp only [Nat.add_sub_cancel_left]⟩
  exact ⟨hfits, hat, image_round_trip oneFile _ _ _ hfits hat⟩

end Shigure.Initrd
