import Shigure.Initrd.RoundTrip

/-!
# Listing the files

`list_fs` goes through the entries of the root, looks each of them up by its name, and
prints what fits into a buffer of each that is not a directory. On the image of a tree
it comes to its end, with the files of the tree in the order of the table. The entry that
`initrd_readdir` returns is a value here; in the program it is static, and every call
writes to it.
-/

namespace Shigure.Initrd

open Libc

/-- The first `n` rounds of the loop of `memset`. -/
def memset (buf : BitVec 32) (value : BitVec 8) : Nat → Mem → Mem
  | 0, m => m
  | n + 1, m => (memset buf value n m).set (buf + .ofNat 32 n).toNat value

-- `buffer` is on the stack of `list_fs`.

def listBuffer : BitVec 32 := 256

/-- What is printed of a node. The size is cast to `int` for the comparison. -/
def printFile (buffer : BitVec 32) (s : Fs) (node : Ref) : Option (List (BitVec 8) × Fs) := do
  let m := memset buffer 0x58 listBuffer.toNat s.mem
  let r ← readFs { s with mem := m } node 0 listBuffer buffer
  some ((List.range r.returned.toInt.toNat).map fun j => r.mem (buffer + .ofNat 32 j).toNat,
    { s with mem := r.mem })

def printNode (buffer : BitVec 32) (s : Fs) (node : Ref) : Option (List (BitVec 8) × Fs) :=
  if (s.deref node).flags = fsDirectory then some ([], s) else printFile buffer s node

/-- The loop from entry `i` on: what it prints, and what it leaves. `none` is a field of
`NULL`, or that the fuel has run out. -/
def listFs (buffer : BitVec 32) : Nat → BitVec 32 → Fs → Option (List (BitVec 8) × Fs)
  | 0, _, _ => none
  | fuel + 1, i, s =>
    match readdirFs s .initrdRoot i with
    | none => some ([], s)
    | some entry => do
      let node ← finddirFs s .initrdRoot entry.name
      let (out, s) ← printNode buffer s node
      let (rest, s) ← listFs buffer fuel (i + 1) s
      some (out ++ rest, s)

structure Beside (buffer : BitVec 32) (s s' : Fs) : Prop where
  same : s' = { s with mem := s'.mem }
  mem : ∀ x, x < buffer.toNat ∨ buffer.toNat + listBuffer.toNat ≤ x → s'.mem x = s.mem x

structure BufferFor (d : Dir) (addr : Nat) (buffer : BitVec 32) : Prop where
  fits : buffer.toNat + listBuffer.toNat ≤ 2 ^ 32
  apart : buffer.toNat + listBuffer.toNat ≤ addr ∨ addr + imageSize d ≤ buffer.toNat

section
variable {d : Dir} {addr : Nat} {m : Mem} {prior : Prior} {buffer : BitVec 32} {s s' s'' : Fs}
  {v : Visit} {i n : Nat}

theorem Beside.refl (buffer : BitVec 32) (s : Fs) : Beside buffer s s := ⟨rfl, fun _ _ => rfl⟩

theorem Beside.trans (h : Beside buffer s s') (h' : Beside buffer s' s'') : Beside buffer s s'' := by
  refine ⟨?_, fun x hx => (h'.mem x hx).trans (h.mem x hx)⟩
  rw [h'.same, h.same]

theorem memset_outside (m : Mem) (value : BitVec 8) (hfits : buffer.toNat + n ≤ 2 ^ 32)
    (hx : x < buffer.toNat ∨ buffer.toNat + n ≤ x) : memset buffer value n m x = m x := by
  induction n with
  | zero => rfl
  | succ n ih =>
    rw [memset, Mem.set, toNat_add_ofNat (by omega), if_neg (by omega), ih (by omega) (by omega)]

theorem Beside.readdirFs (h : Beside buffer s s') (node : Ref) (k : BitVec 32) :
    Initrd.readdirFs s' node k = Initrd.readdirFs s node k := by
  rw [h.same]
  cases node <;> rfl

theorem searchNodes_mem (s : Fs) (m : Mem) (name : List (BitVec 8)) (i k : Nat) :
    searchNodes { s with mem := m } name i k = searchNodes s name i k := by
  induction k generalizing i with
  | zero => rfl
  | succ k ih => rw [searchNodes, searchNodes, ih]

theorem Beside.finddirFs (h : Beside buffer s s') (node : Ref) (name : List (BitVec 8)) :
    Initrd.finddirFs s' node name = Initrd.finddirFs s node name := by
  have hfind : initrdFinddir s' node name = initrdFinddir s node name := by
    rw [h.same, initrdFinddir, initrdFinddir, searchNodes_mem]
  rw [Initrd.finddirFs, Initrd.finddirFs, hfind, h.same]
  cases node <;> rfl

theorem Beside.deref (h : Beside buffer s s') (node : Ref) : s'.deref node = s.deref node := by
  rw [h.same]
  cases node <;> rfl

-- ---------------------------------------------------------------------------
-- One file
-- ---------------------------------------------------------------------------

theorem ImageAt.fileArea (hi : ImageAt d addr m) (h : Fits d) (prior : Prior)
    (hv : (visits d)[i]? = some v) (hpos : 0 < v.bytes.length) :
    addr ≤ ((initrdInitialize addr m prior).fileHeader i).offset.toNat ∧
      ((initrdInitialize addr m prior).fileHeader i).offset.toNat + v.bytes.length ≤
        addr + imageSize d := by
  have hl := initialize_loaded addr m prior
  have hvalid := mem_validRecords.mp (hi.valid h hv)
  have hmem := List.mem_of_getElem? hv
  have hle := written_take_add_le (visits d) hv
  rw [h.length hmem, written_eq h.contents_lt] at hle
  have hne : contentsSize (visits d) ≠ 0 := by
    have := bytes_length_le hmem
    omega
  have hsize : imageSize d = reserved + contentsSize (visits d) := if_neg hne
  have hroom := hi.room
  have hoff : ((initrdInitialize addr m prior).fileHeader i).offset.toNat =
      addr + (reserved + written ((visits d).take i)) := by
    rw [hl.header, if_pos hvalid, hi.header h hv]
    simp only [recordAfter_offset _ hpos]
    rw [BitVec.toNat_add, BitVec.toNat_ofNat, BitVec.toNat_ofNat]
    omega
  omega

theorem Fits.fileHeader_beside (h : Fits d) (hb : BufferFor d addr buffer)
    (hs : Beside buffer (initrdInitialize addr m prior) s) (hlt : i < (visits d).length) :
    s.fileHeader i = (initrdInitialize addr m prior).fileHeader i := by
  have htable := h.table_le_size
  have hmul := Nat.mul_le_mul_left sizeofFileHeader hlt
  rw [Nat.mul_succ] at hmul
  have hapart := hb.apart
  have hbase : s.fileHeaders = addr + sizeofHeader := by
    rw [hs.same]
    exact (initialize_loaded addr m prior).fileHeaders
  rw [Fs.fileHeader, Fs.fileHeader, hbase, (initialize_loaded addr m prior).fileHeaders]
  exact fileHeaderAt_congr fun x h1 h2 => hs.mem x (by omega)

theorem ImageAt.readStart (hi : ImageAt d addr m) (h : Fits d) (hb : BufferFor d addr buffer)
    (hs : Beside buffer (initrdInitialize addr m prior) s) (hv : (visits d)[i]? = some v) :
    ∃ r, readFs s (.rootNode i) 0 listBuffer buffer = some r ∧
      r.returned.toNat = min listBuffer.toNat v.bytes.length ∧
      (∀ k < min listBuffer.toNat v.bytes.length, r.mem (buffer.toNat + k) = v.bytes.getD k 0) ∧
      Beside buffer s { s with mem := r.mem } := by
  have hl := initialize_loaded addr m prior
  have hlt := (List.getElem?_eq_some_iff.mp hv).1
  have hnode : s.rootNodes i = (initrdInitialize addr m prior).rootNodes i := hs.deref (.rootNode i)
  have hheader := h.fileHeader_beside hb hs hlt
  have hlength : (s.fileHeader i).length.toNat = v.bytes.length := by
    rw [hheader, hl.header, if_pos (mem_validRecords.mp (hi.valid h hv)), hi.header h hv,
      ← h.length (List.mem_of_getElem? hv)]
    rfl
  have hread : (s.deref (.rootNode i)).read = .initrdRead := by
    rw [Fs.deref, hnode, hi.node h prior hv]
    rfl
  have hinode : (s.deref (.rootNode i)).inode.toNat = i := by
    rw [Fs.deref, hnode, hi.inode h prior hv]
  have hclamp : clamped (s.fileHeader i).length 0 listBuffer = min listBuffer.toNat v.bytes.length := by
    rw [clamped, hlength]
    rfl
  -- where the bytes of the file are
  have harea := fun hpos => hi.fileArea h prior hv hpos
  have hcontents := fun {k} (hk : k < v.bytes.length) => hi.loadedContents h prior hv hk
  rw [← hheader] at harea
  simp only [← hheader] at hcontents
  have hroom := hi.room
  have hapart := hb.apart
  have hfile : (s.fileHeader i).offset.toNat + (s.fileHeader i).length.toNat ≤ 2 ^ 32 := by
    rw [hlength]
    rcases Nat.eq_zero_or_pos v.bytes.length with h0 | hpos
    · have := (s.fileHeader i).offset.isLt
      omega
    · have := harea hpos
      omega
  have hzero : (0 : BitVec 32).toNat = 0 := rfl
  have hsize : listBuffer.toNat = 256 := rfl
  have hbuffer : Room ((s.fileHeader i).offset.toNat + (0 : BitVec 32).toNat)
      (clamped (s.fileHeader i).length 0 listBuffer) buffer := by
    have hfits := hb.fits
    rw [hclamp]
    refine ⟨by omega, fun j k hj hk => ?_⟩
    have := harea (by omega)
    omega
  have hc : Clamped (s.fileHeader i) s.mem 0 listBuffer buffer
      (initrdRead s (s.deref (.rootNode i)) 0 listBuffer buffer) := by
    have hread := @read_clamped s (s.deref (.rootNode i)) 0 listBuffer buffer
    rw [hinode] at hread
    exact hread hfile hbuffer (by unfold SumWraps; omega)
  refine ⟨_, by rw [readFs, hread], hc.returned.trans hclamp, fun k hk => ?_, rfl, fun x hx => ?_⟩
  · rw [hc.copied k (by rwa [hclamp]), hzero, Nat.add_zero, ← (hcontents (by omega)).2]
    have := harea (by omega)
    exact hs.mem _ (by omega)
  · exact hc.untouched x (by rw [hclamp]; omega)

theorem ImageAt.printFile (hi : ImageAt d addr m) (h : Fits d) (hb : BufferFor d addr buffer)
    (hs : Beside buffer (initrdInitialize addr m prior) s) (hv : (visits d)[i]? = some v) :
    ∃ s', printFile buffer s (.rootNode i) = some (v.bytes.take listBuffer.toNat, s') ∧
      Beside buffer s s' := by
  have hfits := hb.fits
  have hfill : Beside buffer s { s with mem := memset buffer 0x58 listBuffer.toNat s.mem } :=
    ⟨rfl, fun x hx => memset_outside s.mem 0x58 hfits hx⟩
  obtain ⟨r, hr, hsize, hbytes, hmem⟩ := hi.readStart h hb (hs.trans hfill) hv
  have hcount : r.returned.toInt.toNat = min listBuffer.toNat v.bytes.length := by
    have hlt : r.returned.toNat ≤ 256 := hsize.trans_le (Nat.min_le_left _ _)
    rw [BitVec.toInt_eq_toNat_of_lt (by omega), Int.toNat_natCast, hsize]
  have hout : ((List.range r.returned.toInt.toNat).map fun j => r.mem (buffer + .ofNat 32 j).toNat) =
      v.bytes.take listBuffer.toNat := by
    apply List.ext_getElem
    · rw [List.length_map, List.length_range, List.length_take, hcount]
    · intro k h1 h2
      rw [List.length_map, List.length_range, hcount] at h1
      rw [List.getElem_map, List.getElem_range, List.getElem_take, toNat_add_ofNat (by omega),
        hbytes k h1, List.getD_eq_getElem]
  refine ⟨{ s with mem := r.mem }, ?_, rfl, fun x hx => (hmem.mem x hx).trans (hfill.mem x hx)⟩
  rw [Initrd.printFile, hr, Option.bind_eq_bind, Option.bind_some, hout]

-- ---------------------------------------------------------------------------
-- All files
-- ---------------------------------------------------------------------------

theorem bytes_of_not_file (h : ∀ contents, v.found ≠ .file contents) : v.bytes = [] := by
  obtain ⟨path, found, level⟩ := v
  cases found with
  | file contents => exact absurd rfl (h contents)
  | directory => rfl
  | other => rfl

/-- A node that is skipped as a directory has nothing to print. -/
theorem ImageAt.skipped (hi : ImageAt d addr m) (h : Fits d) (prior : Prior)
    (hv : (visits d)[i]? = some v)
    (hflags : ((initrdInitialize addr m prior).rootNodes i).flags = fsDirectory) : v.bytes = [] := by
  refine bytes_of_not_file fun contents hf => ?_
  rw [hi.node h prior hv] at hflags
  simp only [nodeOf, recordAfter, Visit.type, hf, ↓reduceIte] at hflags
  exact absurd hflags (by decide)

theorem ImageAt.printNode (hi : ImageAt d addr m) (h : Fits d) (hb : BufferFor d addr buffer)
    (hs : Beside buffer (initrdInitialize addr m prior) s) (hv : (visits d)[i]? = some v) :
    ∃ s', Initrd.printNode buffer s (.rootNode i) = some (v.bytes.take listBuffer.toNat, s') ∧
      Beside buffer s s' := by
  rw [Initrd.printNode]
  split
  · rename_i hflags
    rw [hs.deref] at hflags
    exact ⟨s, by rw [hi.skipped h prior hv hflags, List.take_nil], .refl _ _⟩
  · exact hi.printFile h hb hs hv

/-- The rounds from entry `k` of the table on. -/
theorem ImageAt.listFrom (hi : ImageAt d addr m) (h : Fits d) (hb : BufferFor d addr buffer)
    (hs : Beside buffer (initrdInitialize addr m prior) s) (k fuel : Nat)
    (hk : k ≤ (visits d).length) (hfuel : (visits d).length < k + fuel) :
    ∃ s', listFs buffer fuel (.ofNat 32 (k + 1)) s =
        some (((visits d).drop k).flatMap fun v => v.bytes.take listBuffer.toNat, s') ∧
      Beside buffer s s' := by
  have hcount := h.count
  have hmax : initrdMaxFiles = 128 := rfl
  induction fuel generalizing k s with
  | zero => omega
  | succ fuel ih =>
    have hlisted := hi.listed h prior k (by omega)
    rw [listFs, hs.readdirFs, hlisted]
    rcases Nat.lt_or_ge k (visits d).length with hlt | hge
    · obtain ⟨v, hv⟩ := getElem?_visits hlt
      have hdrop : (visits d).drop k = v :: (visits d).drop (k + 1) := by
        rw [List.drop_eq_getElem_cons hlt, (List.getElem?_eq_some_iff.mp hv).2]
      have hfind : Initrd.finddirFs s .initrdRoot v.name = some (.rootNode k) :=
        (hs.finddirFs _ _).trans (hi.finddir h prior hv)
      obtain ⟨s₁, hprint, hs₁⟩ := hi.printNode h hb hs hv
      have hnext : BitVec.ofNat 32 (k + 1) + 1 = BitVec.ofNat 32 (k + 1 + 1) := by
        rw [BitVec.ofNat_add (k + 1) 1]
        rfl
      obtain ⟨s', hrest, hs'⟩ := ih (hs.trans hs₁) (k + 1) hlt (by omega)
      refine ⟨s', ?_, hs₁.trans hs'⟩
      rw [hv, hdrop, List.flatMap_cons]
      simp only [Option.map_some, hfind, hprint, hnext, hrest, Option.bind_eq_bind, Option.bind_some]
    · have hnone : (visits d)[k]? = none := List.getElem?_eq_none hge
      rw [hnone, List.drop_eq_nil_of_le hge]
      exact ⟨s, rfl, .refl _ _⟩

/-- `list_fs` on the image of a tree ends, prints the first 256 bytes of each file of the
tree in the order of the table, and leaves the nodes and the memory outside its buffer,
the image with it, as they were. -/
theorem list_fs_prints (prior : Prior) (hi : ImageAt d addr m) (h : Fits d)
    (hb : BufferFor d addr buffer) {fuel : Nat} (hfuel : (visits d).length + 2 ≤ fuel) :
    ∃ s', listFs buffer fuel 0 (initrdInitialize addr m prior) =
        some ((visits d).flatMap fun v => v.bytes.take 256, s') ∧
      s' = { initrdInitialize addr m prior with mem := s'.mem } ∧
      ∀ x, x < buffer.toNat ∨ buffer.toNat + 256 ≤ x →
        s'.mem x = (initrdInitialize addr m prior).mem x := by
  have hl := initialize_loaded addr m prior
  obtain ⟨fuel, rfl⟩ : ∃ n, fuel = n + 1 := ⟨fuel - 1, by omega⟩
  obtain ⟨s', hlist, hs'⟩ := hi.listFrom h hb (.refl _ _) 0 fuel (Nat.zero_le _) (by omega)
  have hdev : Initrd.finddirFs (initrdInitialize addr m prior) .initrdRoot (text "dev") =
      some .initrdDev := by
    rw [hl.finddirFs]
    rfl
  have hflags : ((initrdInitialize addr m prior).deref .initrdDev).flags = fsDirectory := by
    rw [Fs.deref, hl.dev]
    rfl
  refine ⟨s', ?_, hs'.same, hs'.mem⟩
  rw [listFs, hl.readdirFs, readdir_dev]
  simp only [hdev, printNode, hflags, if_true, Option.bind_eq_bind, Option.bind_some]
  exact congrArg (Option.bind · _) hlist

theorem list_fs_prints_oneFile : ∃ s', listFs 0x1000 10 0
    (initrdInitialize 0x200000 (fun x => (main 2 true oneFile).2.image (x - 0x200000))
      ⟨blankNode, blankNode, fun _ => blankNode⟩) = some ([0x68, 0x69], s') := by
  have hfits : Fits oneFile := ⟨by decide, by decide, by decide, by decide, by decide, by decide⟩
  have hat : ImageAt oneFile 0x200000 fun x => (main 2 true oneFile).2.image (x - 0x200000) :=
    ⟨by decide, fun x _ => by simp only [Nat.add_sub_cancel_left]⟩
  obtain ⟨s', hlist, -⟩ := list_fs_prints ⟨blankNode, blankNode, fun _ => blankNode⟩ hat hfits
    (⟨by decide, .inl (by decide)⟩ : BufferFor oneFile 0x200000 0x1000)
    (show (visits oneFile).length + 2 ≤ 10 by decide)
  have hout : ((visits oneFile).flatMap fun v => v.bytes.take 256) = [0x68, 0x69] := by decide
  rw [hout] at hlist
  exact ⟨s', hlist⟩

end

end Shigure.Initrd
