import Shigure.Initrd.BuilderLaws

/-!
# Images of whole trees

When the image that `main` leaves is the image of the tree, and when its records
name the right parents.
-/

namespace Shigure.Initrd

open Libc

-- ---------------------------------------------------------------------------
-- Damaged images
-- ---------------------------------------------------------------------------

/-- The table has a record for each entry and lies in the space reserved for it, away
from all contents; no write goes past the end of `files`. The table ends at the
position after the last write. -/
structure Undamaged (d : Dir) (b : Builder) : Prop where
  nfiles : b.image.read32 0 = (visits d).length
  records : ∀ i v, (visits d)[i]? = some v →
    let h := fileHeaderAt b.image (sizeofHeader + sizeofFileHeader * i)
    h.magic = initrdMagic ∧ h.number = .ofNat 32 i ∧ h.type = v.type ∧
      h.name.toList = strncpy (List.replicate 64 0) (v.path.drop 7) 63
  inReserved : b.pos ≤ reserved
  apart : ∀ q ∈ b.data, b.pos ≤ q.1
  inArray : ∀ i ∈ b.stored, i < initrdMaxFiles

theorem walked_visits (hcount : (visits d).length ≤ initrdMaxFiles + 1)
    (hread : ∀ v ∈ visits d, v.found.readable) : Walked (visits d) (nftw (visits d) started) := by
  have h : Walked ([] ++ visits d) (nftw (visits d) started) :=
    walked_started.nftw (by rw [List.length_nil]; omega) hread
  exact h

theorem Walked.record_of_image (h : Walked vs b) (hi : vs[i]? = some v) :
    fileHeaderAt (finish b).image (sizeofHeader + sizeofFileHeader * i) =
      recordAfter (vs.take i) v := by
  have hlt := (List.getElem?_eq_some_iff.mp hi).1
  rw [finish_record b (by rw [h.fileCount]; exact hlt), h.record i v hi]

theorem undamaged_of_walked (h : Walked (visits d) b) (hcount : (visits d).length ≤ initrdMaxFiles) :
    Undamaged d (finish b) := by
  have hmax : initrdMaxFiles = 128 := rfl
  have hend : (finish b).pos ≤ reserved := by
    simp only [finish, reserved, h.fileCount]
    have := Nat.mul_le_mul_left sizeofFileHeader hcount
    omega
  refine ⟨?_, ?_, hend, ?_, ?_⟩
  · rw [finish_nfiles, h.fileCount, Nat.mod_eq_of_lt (by omega)]
  · intro i v hi
    have hlt := (List.getElem?_eq_some_iff.mp hi).1
    rw [h.record_of_image hi]
    refine ⟨rfl, ?_, rfl, rfl⟩
    rw [recordAfter, List.length_take_of_le (Nat.le_of_lt hlt)]
  · intro q hq
    exact Nat.le_trans hend (h.data q hq)
  · intro i hi
    have : i ∈ b.stored := hi
    rw [h.stored, List.mem_range] at this
    omega

theorem fileCount_le_of_walk (us : List Visit) (b : Builder)
    (h : b.fileCount ≤ initrdMaxFiles + 1) : (nftw us b).fileCount ≤ initrdMaxFiles + 1 := by
  induction us generalizing b with
  | nil => exact h
  | cons u us ih =>
    rw [nftw]
    obtain ⟨hs, hc⟩ | ⟨hs, hc, -, hroom⟩ := processEntry_cases u b
    · simp only [hs, ↓reduceIte, hc]
      exact h
    · simp only [hs, ↓reduceIte]
      exact ih _ (by omega)

/-- An exit with status 0 means an undamaged image exactly if nothing stops the walk:
the tree has at most `INITRD_MAX_FILES` entries and every file can be opened. -/
theorem status_honest_iff (argc : Nat) (opens : Bool) (d : Dir) :
    ((main argc opens d).1 = 0 → Undamaged d (main argc opens d).2) ↔
      (2 ≤ argc → opens = true →
        (visits d).length ≤ initrdMaxFiles ∧ ∀ v ∈ visits d, v.found.readable) := by
  have hmax : initrdMaxFiles = 128 := rfl
  by_cases harg : argc < 2
  · refine iff_of_true (fun h => ?_) fun hargc => absurd hargc (Nat.not_le.mpr harg)
    rw [main, if_pos harg] at h
    exact absurd h (by decide)
  by_cases hopen : opens = true
  · have hmain : main argc opens d = (0, finish (nftw (visits d) started)) := by
      simp [main, harg, hopen]
    rw [hmain]
    constructor
    · intro h _ _
      have hu := h rfl
      have hle := fileCount_le_of_walk (visits d) started (by decide)
      have hn := hu.nfiles
      rw [finish_nfiles, Nat.mod_eq_of_lt (by omega)] at hn
      obtain ⟨hread, -⟩ := nftw_complete (visits d) started (by simpa [started] using hn)
      refine ⟨?_, hread⟩
      have hpos := hu.inReserved
      simp only [finish, hn, reserved, sizeofFileHeader] at hpos
      omega
    · intro h _
      obtain ⟨hcount, hread⟩ := h (by omega) hopen
      exact undamaged_of_walked (walked_visits (by omega) hread) hcount
  · simp [main, harg, hopen]

/-- `n` empty files, their names `a`, `aa` and so on, the longest first. -/
def emptyFiles : Nat → Dir
  | 0 => .nil
  | n + 1 => .file ⟨List.replicate (n + 1) 0x61, by simp, by simp⟩ (some []) (emptyFiles n)

theorem emptyFiles_visits (n : Nat) (path : List (BitVec 8)) (level : Nat) :
    ((emptyFiles n).visits path level).length = n ∧
      ∀ v ∈ (emptyFiles n).visits path level, v.found.readable := by
  induction n with
  | zero => simp [emptyFiles, Dir.visits]
  | succ n ih =>
    simp only [emptyFiles, Dir.visits, List.length_cons, ih.1, List.mem_cons, true_and]
    rintro v (rfl | hv)
    · rfl
    · exact ih.2 v hv

/-- With 128 files next to the directory itself, the last record goes past the end of
the array. -/
theorem record_past_end :
    ¬ ((main 2 true (emptyFiles 128)).1 = 0 →
      Undamaged (emptyFiles 128) (main 2 true (emptyFiles 128)).2) := by
  intro h
  obtain ⟨hlen, hread⟩ := emptyFiles_visits 128 (text "initrd") 1
  have hcount : (visits (emptyFiles 128)).length = 129 := by rw [visits, List.length_cons, hlen]
  have hw := walked_visits (d := emptyFiles 128) (by rw [hcount]; decide) (by
    rintro v (_ | ⟨_, hv⟩)
    · rfl
    · exact hread v hv)
  have hlast := (h rfl).inArray 128 (by
    have hs : (main 2 true (emptyFiles 128)).2.stored = List.range 129 := by
      rw [← hcount, ← hw.stored]
      rfl
    rw [hs]
    decide)
  exact absurd hlast (by decide)

-- ---------------------------------------------------------------------------
-- Parents
-- ---------------------------------------------------------------------------

def Dir.size : Dir → Nat
  | .nil => 0
  | .file _ _ rest => 1 + rest.size
  | .dir _ entries rest => 1 + entries.size + rest.size
  | .other _ rest => 1 + rest.size

/-- For each entry the number of the directory that contains it, `next` being the
number of the first entry and `parent` that of this directory. -/
def Dir.parents (next parent : Nat) : Dir → List Nat
  | .nil => []
  | .file _ _ rest => parent :: rest.parents (next + 1) parent
  | .dir _ entries rest =>
    parent :: entries.parents (next + 1) next ++ rest.parents (next + 1 + entries.size) parent
  | .other _ rest => parent :: rest.parents (next + 1) parent

/-- Below the root, nothing comes after a directory in its parent. -/
def Dir.LastOnly : Dir → Prop
  | .nil => True
  | .file _ _ rest => rest.LastOnly
  | .dir _ entries rest => entries.LastOnly ∧ rest = .nil
  | .other _ rest => rest.LastOnly

/-- The same in all directories of the root; the root itself may have its entries in
any order. -/
def Dir.SubdirsLast : Dir → Prop
  | .nil => True
  | .file _ _ rest => rest.SubdirsLast
  | .dir _ entries rest => entries.LastOnly ∧ rest.SubdirsLast
  | .other _ rest => rest.SubdirsLast

def parentsAfter : List Visit → List Visit → List (BitVec 32)
  | _, [] => []
  | pre, u :: us => parentAfter pre u.level :: parentsAfter (pre ++ [u]) us

theorem parentsAfter_append (pre us ws : List Visit) :
    parentsAfter pre (us ++ ws) = parentsAfter pre us ++ parentsAfter (pre ++ us) ws := by
  induction us generalizing pre with
  | nil => simp [parentsAfter]
  | cons u us ih => simp [parentsAfter, ih]

theorem parentsAfter_getElem? (pre us : List Visit) (i : Nat) :
    (parentsAfter pre us)[i]? = us[i]?.map fun u => parentAfter (pre ++ us.take i) u.level := by
  induction us generalizing pre i with
  | nil => simp [parentsAfter]
  | cons u us ih =>
    cases i with
    | zero => simp [parentsAfter]
    | succ i => simp [parentsAfter, ih]

theorem Dir.visits_length (d : Dir) (path : List (BitVec 8)) (level : Nat) :
    (d.visits path level).length = d.size := by
  induction d generalizing path level with
  | nil => rfl
  | file name contents rest ih => simp [visits, size, ih, Nat.add_comm]
  | dir name entries rest ihe ihr =>
    simp only [visits, size, List.length_cons, List.length_append, ihe, ihr]
    omega
  | other name rest ih => simp [visits, size, ih, Nat.add_comm]

theorem parentsAfter_length (pre us : List Visit) : (parentsAfter pre us).length = us.length := by
  induction us generalizing pre with
  | nil => rfl
  | cons u us ih => simp [parentsAfter, ih]

theorem Dir.parents_length (d : Dir) (next parent : Nat) :
    (d.parents next parent).length = d.size := by
  induction d generalizing next parent with
  | nil => rfl
  | file name contents rest ih => simp [parents, size, ih, Nat.add_comm]
  | dir name entries rest ihe ihr =>
    simp only [parents, size, List.length_cons, List.length_append, ihe, ihr]
    omega
  | other name rest ih => simp [parents, size, ih, Nat.add_comm]

theorem lastDir_append_dir (pre us : List Visit) (v : Visit) (hv : v.type = directory) :
    ∃ q, lastDir (pre ++ [v] ++ us) = some q ∧ pre.length ≤ q ∧ q < (pre ++ [v] ++ us).length := by
  induction us using List.reverseRecOn with
  | nil =>
    refine ⟨pre.length, ?_, Nat.le_refl _, by simp⟩
    rw [List.append_nil, lastDir_concat, if_pos hv]
  | append_singleton us u ih =>
    obtain ⟨q, hq, hle, hlt⟩ := ih
    rw [← List.append_assoc, lastDir_concat]
    split
    · exact ⟨_, rfl, by simp, by simp⟩
    · exact ⟨q, hq, hle, by rw [List.length_append]; omega⟩

/-- An entry after the directory `v` gets another parent than the directory of `v`. -/
theorem parentsAfter_behind (rest : Dir) (pre us : List Visit) (v : Visit) (path : List (BitVec 8))
    (next : Nat) (hv : v.type = directory) (hlevel : level > 1) (hparent : parent < pre.length)
    (hroom : (pre ++ [v] ++ us).length ≤ 2 ^ 32) :
    parentsAfter (pre ++ [v] ++ us) (rest.visits path level) =
      (rest.parents next parent).map (BitVec.ofNat 32) ↔ rest = .nil := by
  obtain ⟨q, hq, hle, hlt⟩ := lastDir_append_dir pre us v hv
  have hne : parentAfter (pre ++ [v] ++ us) level ≠ BitVec.ofNat 32 parent := by
    rw [parentAfter, if_pos hlevel, hq, Option.getD_some]
    intro h
    have := congrArg BitVec.toNat h
    simp only [BitVec.toNat_ofNat] at this
    omega
  cases rest with
  | nil => simp [Dir.visits, Dir.parents, parentsAfter]
  | file name contents rest =>
    simp only [Dir.visits, parentsAfter, Dir.parents, List.map_cons, List.cons.injEq, hne,
      false_and, reduceCtorEq]
  | dir name entries rest =>
    simp only [Dir.visits, List.cons_append, parentsAfter, Dir.parents, List.map_cons,
      List.cons.injEq, hne, false_and, reduceCtorEq]
  | other name rest =>
    simp only [Dir.visits, parentsAfter, Dir.parents, List.map_cons, List.cons.injEq, hne,
      false_and, reduceCtorEq]

theorem parentsAfter_leaf {pre us : List Visit} {v : Visit} {P : Prop} (parents : Nat → List Nat)
    (hhere : parentAfter pre v.level = BitVec.ofNat 32 parent)
    (hrest : parentsAfter (pre ++ [v]) us =
      (parents (pre ++ [v]).length).map (BitVec.ofNat 32) ↔ P) :
    parentsAfter pre (v :: us) =
      (parent :: parents (pre.length + 1)).map (BitVec.ofNat 32) ↔ P := by
  rw [List.length_append, List.length_singleton] at hrest
  simp only [parentsAfter, List.map_cons, List.cons.injEq, hhere, true_and]
  exact hrest

/-- Below the root the parents are right exactly if nothing comes after a directory. -/
theorem parentsAfter_below (d : Dir) (pre : List Visit) (path : List (BitVec 8)) (level parent : Nat)
    (hlevel : level > 1) (hlast : lastDir pre = some parent) (hparent : parent < pre.length)
    (hroom : pre.length + d.size < 2 ^ 32) :
    parentsAfter pre (d.visits path level) = (d.parents pre.length parent).map (BitVec.ofNat 32) ↔
      d.LastOnly := by
  have hhere : parentAfter pre level = BitVec.ofNat 32 parent := by
    rw [parentAfter, if_pos hlevel, hlast]
    rfl
  induction d generalizing pre path level parent with
  | nil => simp [Dir.visits, Dir.parents, Dir.LastOnly, parentsAfter]
  | file name contents rest ih =>
    rw [Dir.size] at hroom
    let v : Visit := ⟨path ++ slash :: name.bytes, .file contents, level⟩
    have hl : lastDir (pre ++ [v]) = some parent := by
      rw [lastDir_concat, if_neg (by simp [v, Visit.type, afile, directory]), hlast]
    have hrest := ih (pre ++ [v]) path level parent hlevel hl (by simp; omega) (by simp; omega)
      (by rw [parentAfter, if_pos hlevel, hl]; rfl)
    exact parentsAfter_leaf (rest.parents · parent) hhere hrest
  | dir name entries rest ihe ihr =>
    rw [Dir.size] at hroom
    let v : Visit := ⟨path ++ slash :: name.bytes, .directory, level⟩
    let us := entries.visits (path ++ slash :: name.bytes) (level + 1)
    have hus : us.length = entries.size := Dir.visits_length _ _ _
    have hl : lastDir (pre ++ [v]) = some pre.length := by
      rw [lastDir_concat]
      rfl
    have hin := ihe (pre ++ [v]) (path ++ slash :: name.bytes) (level + 1) pre.length (by omega) hl
      (by simp) (by simp; omega) (by rw [parentAfter, if_pos (by omega), hl]; rfl)
    have hbehind := parentsAfter_behind rest pre us v path (pre.length + 1 + entries.size) rfl hlevel
      hparent (by simp; omega)
    rw [List.length_append, List.length_singleton] at hin
    have hsplit : parentsAfter (pre ++ [v]) (us ++ rest.visits path level) =
        (entries.parents (pre.length + 1) pre.length ++
          rest.parents (pre.length + 1 + entries.size) parent).map (BitVec.ofNat 32) ↔
        entries.LastOnly ∧ rest = .nil := by
      rw [parentsAfter_append, List.map_append]
      constructor
      · intro h
        obtain ⟨h1, h2⟩ := List.append_inj h (by
          rw [parentsAfter_length, List.length_map, Dir.parents_length, hus])
        exact ⟨hin.mp h1, hbehind.mp h2⟩
      · rintro ⟨h1, h2⟩
        rw [hbehind.mpr h2]
        exact congrArg (· ++ _) (hin.mpr h1)
    simp only [Dir.visits, List.cons_append, parentsAfter, Dir.parents, List.map_cons,
      List.cons.injEq, hhere, true_and, Dir.LastOnly]
    exact hsplit
  | other name rest ih =>
    rw [Dir.size] at hroom
    let v : Visit := ⟨path ++ slash :: name.bytes, .other, level⟩
    have hl : lastDir (pre ++ [v]) = some parent := by
      rw [lastDir_concat, if_neg (by simp [v, Visit.type, directory]), hlast]
    have hrest := ih (pre ++ [v]) path level parent hlevel hl (by simp; omega) (by simp; omega)
      (by rw [parentAfter, if_pos hlevel, hl]; rfl)
    exact parentsAfter_leaf (rest.parents · parent) hhere hrest

theorem parentsAfter_root (d : Dir) (pre : List Visit) (path : List (BitVec 8))
    (hroom : pre.length + d.size < 2 ^ 32) :
    parentsAfter pre (d.visits path 1) = (d.parents pre.length 0).map (BitVec.ofNat 32) ↔
      d.SubdirsLast := by
  induction d generalizing pre with
  | nil => simp [Dir.visits, Dir.parents, Dir.SubdirsLast, parentsAfter]
  | file name contents rest ih =>
    rw [Dir.size] at hroom
    let v : Visit := ⟨path ++ slash :: name.bytes, .file contents, 1⟩
    have hrest := ih (pre ++ [v]) (by simp; omega)
    exact parentsAfter_leaf (rest.parents · 0) rfl hrest
  | dir name entries rest _ ih =>
    rw [Dir.size] at hroom
    let v : Visit := ⟨path ++ slash :: name.bytes, .directory, 1⟩
    let us := entries.visits (path ++ slash :: name.bytes) 2
    have hus : us.length = entries.size := Dir.visits_length _ _ _
    have hl : lastDir (pre ++ [v]) = some pre.length := by
      rw [lastDir_concat]
      rfl
    have hin := parentsAfter_below entries (pre ++ [v]) (path ++ slash :: name.bytes) 2 pre.length
      (by omega) hl (by simp) (by simp; omega)
    have hrest := ih (pre ++ [v] ++ us) (by simp; omega)
    rw [List.length_append, List.length_singleton] at hin
    rw [List.length_append, List.length_append, List.length_singleton, hus] at hrest
    simp only [Dir.visits, List.cons_append, parentsAfter, Dir.parents, List.map_cons,
      List.cons.injEq, Dir.SubdirsLast, parentsAfter_append, List.map_append]
    constructor
    · rintro ⟨-, h⟩
      obtain ⟨h1, h2⟩ := List.append_inj h (by
        rw [parentsAfter_length, List.length_map, Dir.parents_length, Dir.visits_length])
      exact ⟨hin.mp h1, hrest.mp h2⟩
    · rintro ⟨h1, h2⟩
      refine ⟨rfl, ?_⟩
      exact congrArg₂ (· ++ ·) (hin.mpr h1) (hrest.mpr h2)
  | other name rest ih =>
    rw [Dir.size] at hroom
    let v : Visit := ⟨path ++ slash :: name.bytes, .other, 1⟩
    have hrest := ih (pre ++ [v]) (by simp; omega)
    exact parentsAfter_leaf (rest.parents · 0) rfl hrest

/-- The records name their parents exactly if, in every directory but the root, nothing
is visited after a directory. -/
theorem parents_right_iff (d : Dir) (hcount : (visits d).length ≤ initrdMaxFiles)
    (hread : ∀ v ∈ visits d, v.found.readable) :
    (∀ i p, (d.parents 1 0)[i]? = some p →
      ((nftw (visits d) started).files (i + 1)).parentNumber = .ofNat 32 p) ↔ d.SubdirsLast := by
  have hmax : initrdMaxFiles = 128 := rfl
  have hw := walked_visits (by omega) hread
  let root : Visit := ⟨text "initrd", .directory, 0⟩
  let us := d.visits (text "initrd") 1
  have hlen : (visits d).length = 1 + d.size := by
    rw [visits, List.length_cons, Dir.visits_length, Nat.add_comm]
  have hroot : parentsAfter [root] us = (d.parents 1 0).map (BitVec.ofNat 32) ↔ d.SubdirsLast :=
    parentsAfter_root d [root] (text "initrd") (by simp; omega)
  rw [← hroot]
  have hfound : ∀ i u, us[i]? = some u →
      ((nftw (visits d) started).files (i + 1)).parentNumber =
        parentAfter ([root] ++ us.take i) u.level := by
    intro i u hu
    rw [hw.record (i + 1) u hu]
    rfl
  have hsame : us.length = (d.parents 1 0).length := by
    rw [Dir.visits_length, Dir.parents_length]
  constructor
  · intro h
    apply List.ext_getElem?
    intro i
    rw [parentsAfter_getElem?, List.getElem?_map]
    obtain hi | hi := Nat.lt_or_ge i us.length
    · have hu := List.getElem?_eq_getElem hi
      have hp := List.getElem?_eq_getElem (l := d.parents 1 0) (i := i) (by omega)
      rw [hp, hu, Option.map_some, Option.map_some, ← hfound i _ hu, h i _ hp]
    · rw [List.getElem?_eq_none hi, List.getElem?_eq_none (l := d.parents 1 0) (by omega)]
      rfl
  · intro h i p hp
    have hi : i < us.length := by
      have := (List.getElem?_eq_some_iff.mp hp).1
      omega
    have hu := List.getElem?_eq_getElem hi
    have heq := congrArg (·[i]?) h
    simp only [parentsAfter_getElem?, List.getElem?_map] at heq
    rw [hu, hp, Option.map_some, Option.map_some, Option.some.injEq] at heq
    rw [hfound i _ hu, heq]

def nameA : Name := ⟨[0x61], by decide, by decide⟩

def nameB : Name := ⟨[0x62], by decide, by decide⟩

/-- A directory with a file and then a directory. -/
def fileFirst : Dir := .dir nameA (.file nameA (some []) (.dir nameB .nil .nil)) .nil

theorem parents_right_fileFirst :
    (visits fileFirst).length ≤ initrdMaxFiles ∧ (∀ v ∈ visits fileFirst, v.found.readable) ∧
      ∀ i p, (fileFirst.parents 1 0)[i]? = some p →
        ((nftw (visits fileFirst) started).files (i + 1)).parentNumber = .ofNat 32 p :=
  ⟨by decide, by decide, (parents_right_iff fileFirst (by decide) (by decide)).mpr
    ⟨⟨trivial, rfl⟩, trivial⟩⟩

/-- The other way round: the file gets the directory before it as its parent. -/
def dirFirst : Dir := .dir nameA (.dir nameB .nil (.file nameA (some []) .nil)) .nil

theorem parent_of_sibling :
    ¬ ∀ i p, (dirFirst.parents 1 0)[i]? = some p →
      ((nftw (visits dirFirst) started).files (i + 1)).parentNumber = .ofNat 32 p := by
  intro h
  have hfile := h 2 1 rfl
  revert hfile
  decide

end Shigure.Initrd
