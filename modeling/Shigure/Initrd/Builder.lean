import Shigure.Initrd.Header

/-!
# The image builder

`initrd_builder.c`: `nftw` visits the tree below `initrd`, a directory before its
contents, and `process_entry` writes the contents of each file behind the space
reserved for the table; the table is written last. `nftw` stops when
`process_entry` returns something other than 0, which `main` does not look at.
-/

namespace Shigure.Initrd

open Libc

-- ---------------------------------------------------------------------------
-- Directory trees
-- ---------------------------------------------------------------------------

structure Name where
  bytes : List (BitVec 8)
  noNul : 0 ∉ bytes
  nonempty : bytes ≠ []

/-- The entries of a directory in the order of the visits. A file that cannot be
opened has no contents. -/
inductive Dir where
  | nil
  | file (name : Name) (contents : Option (List (BitVec 8))) (rest : Dir)
  | dir (name : Name) (entries : Dir) (rest : Dir)
  /-- A link, a device, a directory that cannot be read. -/
  | other (name : Name) (rest : Dir)

inductive Found where
  | directory
  | file (contents : Option (List (BitVec 8)))
  | other

/-- What `nftw` passes to its callback. -/
structure Visit where
  path : List (BitVec 8)
  found : Found
  level : Nat

def slash : BitVec 8 := 0x2F

def Dir.visits (path : List (BitVec 8)) (level : Nat) : Dir → List Visit
  | .nil => []
  | .file name contents rest =>
    ⟨path ++ slash :: name.bytes, .file contents, level⟩ :: rest.visits path level
  | .dir name entries rest =>
    ⟨path ++ slash :: name.bytes, .directory, level⟩ ::
      entries.visits (path ++ slash :: name.bytes) (level + 1) ++ rest.visits path level
  | .other name rest => ⟨path ++ slash :: name.bytes, .other, level⟩ :: rest.visits path level

def visits (d : Dir) : List Visit :=
  ⟨text "initrd", .directory, 0⟩ :: d.visits (text "initrd") 1

-- ---------------------------------------------------------------------------
-- `process_entry`
-- ---------------------------------------------------------------------------

/-- The builder's variables and the image. `stored` are the indices of `files` that
were written to and `data` the places of the contents in the image, position and
length. -/
structure Builder where
  files : Nat → FileHeader
  fileCount : Nat
  currentOffset : BitVec 32
  image : Mem
  pos : Nat
  stored : List Nat
  data : List (Nat × Nat)

/-- Where the contents begin. -/
def reserved : Nat := sizeofHeader + sizeofFileHeader * initrdMaxFiles

def findParent (files : Nat → FileHeader) (level : Nat) : Nat → Option (BitVec 32)
  | 0 => none
  | i + 1 =>
    if (files i).type = directory ∧ level > 1 then some (files i).number
    else findParent files level i

def setName (f : FileHeader) (path : List (BitVec 8)) : FileHeader :=
  { f with name := ⟨(strncpy f.name.toList (path.drop 7) 63).toArray, by simp [strncpy]⟩ }

def processEntry (v : Visit) (b : Builder) : Nat × Builder :=
  if b.fileCount > initrdMaxFiles then (1, b)
  else
    let old := b.files b.fileCount
    let parent :=
      if v.level = 0 then 0
      else (findParent b.files v.level b.fileCount).getD old.parentNumber
    let f := setName
      { old with magic := initrdMagic, number := .ofNat 32 b.fileCount, parentNumber := parent }
      v.path
    let put (f : FileHeader) : Builder :=
      { b with
        files := fun i => if i = b.fileCount then f else b.files i
        stored := b.stored ++ [b.fileCount] }
    match v.found with
    | .directory =>
      (0, { put { f with type := directory, offset := 0, length := 0 } with
        fileCount := b.fileCount + 1 })
    | .file none => (1, put { f with type := afile })
    | .file (some contents) =>
      let length : BitVec 32 := .ofNat 32 contents.length
      (0, { put { f with type := afile, length := length, offset := b.currentOffset } with
        fileCount := b.fileCount + 1
        image := b.image.store b.pos (contents.take length.toNat)
        pos := b.pos + length.toNat
        data := b.data ++ [(b.pos, length.toNat)]
        currentOffset := b.currentOffset + length })
    | .other => (0, { put f with fileCount := b.fileCount + 1 })

def nftw : List Visit → Builder → Builder
  | [], b => b
  | v :: vs, b =>
    let (status, b') := processEntry v b
    if status = 0 then nftw vs b' else b'

-- ---------------------------------------------------------------------------
-- `main`
-- ---------------------------------------------------------------------------

/-- The image after the first `fseek`. -/
def started : Builder where
  files := fun _ => .zero
  fileCount := 0
  currentOffset := .ofNat 32 reserved
  image := fun _ => 0
  pos := reserved
  stored := []
  data := []

def tableBytes (files : Nat → FileHeader) (n : Nat) : List (BitVec 8) :=
  (List.range (sizeofFileHeader * n)).map fun x =>
    (files (x / sizeofFileHeader)).byte (x % sizeofFileHeader)

def finish (b : Builder) : Builder :=
  { b with
    image := (b.image.store 0 (Mem.wordBytes (.ofNat 32 b.fileCount))).store sizeofHeader
      (tableBytes b.files b.fileCount)
    pos := sizeofHeader + sizeofFileHeader * b.fileCount }

/-- The exit status and the builder at the end; `opens` says whether the image can be
opened. -/
def main (argc : Nat) (opens : Bool) (d : Dir) : Nat × Builder :=
  if argc < 2 then (1, started)
  else if !opens then (1, started)
  else (0, finish (nftw (visits d) started))

end Shigure.Initrd
