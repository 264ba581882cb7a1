import Shigure.Initrd.Header

/-!
# The ramdisk in the kernel

`initrd.c` and `fs.c`: the loader turns each record of the image into a node of
`root_nodes`, makes the offsets of the records absolute in place, and the file
system calls go through the callbacks of a node. The image is in memory as bytes;
the nodes, which `kmalloc` has returned, are records with the contents that this
memory had. The image lies in memory, so that no address of it wraps.
-/

namespace Shigure.Initrd

open Libc

/-- The functions that a node can point to. -/
inductive Fn
  | null
  | initrdRead
  | initrdReaddir
  | initrdFinddir
  | other (addr : BitVec 32)
  deriving DecidableEq

def fsFile : BitVec 8 := 0x01

def fsDirectory : BitVec 8 := 0x02

structure FsNode where
  name : List (BitVec 8)
  mask : BitVec 32
  uid : BitVec 8
  gid : BitVec 8
  flags : BitVec 8
  inode : BitVec 32
  parentInode : BitVec 32
  length : BitVec 32
  read : Fn
  write : Fn
  openFn : Fn
  close : Fn
  readdir : Fn
  finddir : Fn
  ptr : BitVec 32
  deriving DecidableEq

structure Dirent where
  name : List (BitVec 8)
  inode : BitVec 32
  deriving DecidableEq

inductive Ref
  | initrdRoot
  | initrdDev
  | rootNode (i : Nat)
  deriving DecidableEq

structure Fs where
  mem : Mem
  fileHeaders : Nat
  root : FsNode
  dev : FsNode
  rootNodes : Nat → FsNode
  nnodes : Nat
  versionNode : Option Nat

def Fs.deref (s : Fs) : Ref → FsNode
  | .initrdRoot => s.root
  | .initrdDev => s.dev
  | .rootNode i => s.rootNodes i

def Fs.fileHeader (s : Fs) (i : Nat) : FileHeader :=
  fileHeaderAt s.mem (s.fileHeaders + sizeofFileHeader * i)

-- ---------------------------------------------------------------------------
-- The loader
-- ---------------------------------------------------------------------------

/-- A directory of the loader itself, from what its memory had. -/
def directoryNode (name : String) (prior : FsNode) : FsNode :=
  { prior with
    name := strcpy prior.name (text name)
    mask := 0, uid := 0, gid := 0, inode := 0, length := 0
    flags := fsDirectory
    read := .null, write := .null, openFn := .null, close := .null
    readdir := .initrdReaddir, finddir := .initrdFinddir
    ptr := 0 }

/-- The node of a record. A type that is neither a file's nor a directory's leaves
the flags as they were. -/
def nodeOf (h : FileHeader) (prior : FsNode) : FsNode :=
  { name := strcpy prior.name h.name.toList
    mask := 0, uid := 0, gid := 0
    length := h.length
    inode := h.number
    parentInode := h.parentNumber
    read := .initrdRead, write := .null, readdir := .null, finddir := .null
    openFn := .null, close := .null, ptr := 0
    flags :=
      if h.type = afile then fsFile
      else if h.type = directory then fsDirectory
      else prior.flags }

def loadHeader (multibootAddr : Nat) (s : Fs) (i : Nat) : Fs :=
  let h := s.fileHeader i
  if h.magic ≠ initrdMagic then s
  else
    let node := nodeOf h (s.rootNodes i)
    { s with
      mem := s.mem.write32 (s.fileHeaders + sizeofFileHeader * i + 68)
        (h.offset + .ofNat 32 multibootAddr).toNat
      rootNodes := fun j => if j = i then node else s.rootNodes j
      versionNode :=
        if strcmp node.name (text "version.txt") = 0 then some i else s.versionNode }

/-- What the memory has that `kmalloc` returns. -/
structure Prior where
  root : FsNode
  dev : FsNode
  rootNodes : Nat → FsNode

def initrdInitialize (multibootAddr : Nat) (m : Mem) (prior : Prior) : Fs :=
  let nfiles := m.read32 multibootAddr
  (List.range nfiles).foldl (loadHeader multibootAddr)
    { mem := m
      fileHeaders := multibootAddr + sizeofHeader
      root := directoryNode "root" prior.root
      dev := directoryNode "dev" prior.dev
      rootNodes := prior.rootNodes
      nnodes := nfiles
      versionNode := none }

-- ---------------------------------------------------------------------------
-- The callbacks
-- ---------------------------------------------------------------------------

/-- `memcpy` of the C library, the first `n` rounds of its loop, on a memory that is
addressed as it is. -/
def memcpy (dst src : BitVec 32) : Nat → Mem → Mem
  | 0, m => m
  | n + 1, m =>
    let m' := memcpy dst src n m
    m'.set (dst + .ofNat 32 n).toNat (m' (src + .ofNat 32 n).toNat)

/-- A read: the value returned, the memory after it and the addresses read. -/
structure ReadResult where
  returned : BitVec 32
  mem : Mem
  source : List Nat

def initrdRead (s : Fs) (node : FsNode) (offset size buffer : BitVec 32) : ReadResult :=
  let header := s.fileHeader node.inode.toNat
  if offset > header.length then ⟨0, s.mem, []⟩
  else
    let size := if offset + size > header.length then header.length - offset else size
    let src := header.offset + offset
    ⟨size, memcpy buffer src size.toNat s.mem,
      (List.range size.toNat).map fun i => (src + .ofNat 32 i).toNat⟩

def initrdReaddir (s : Fs) (node : Ref) (index : BitVec 32) : Option Dirent :=
  if node = .initrdRoot ∧ index = 0 then some ⟨text "dev", 0⟩
  else
    let index := if node = .initrdRoot then index - 1 else index
    if index.toNat ≥ s.nnodes then none
    else
      let n := s.rootNodes index.toNat
      some ⟨cString n.name, n.inode⟩

def searchNodes (s : Fs) (name : List (BitVec 8)) (i : Nat) : Nat → Option Nat
  | 0 => none
  | k + 1 => if strcmp name (s.rootNodes i).name = 0 then some i else searchNodes s name (i + 1) k

def initrdFinddir (s : Fs) (node : Ref) (name : List (BitVec 8)) : Option Ref :=
  if node = .initrdRoot ∧ strcmp name (text "dev") = 0 then some .initrdDev
  else (searchNodes s name 0 s.nnodes).map .rootNode

-- ---------------------------------------------------------------------------
-- `fs.c`
-- ---------------------------------------------------------------------------

-- A call through a pointer to another function is not followed.

def readFs (s : Fs) (node : Ref) (offset size buffer : BitVec 32) : Option ReadResult :=
  match (s.deref node).read with
  | .null => some ⟨0, s.mem, []⟩
  | .initrdRead => some (initrdRead s (s.deref node) offset size buffer)
  | _ => none

def readdirFs (s : Fs) (node : Ref) (index : BitVec 32) : Option Dirent :=
  if (s.deref node).flags = fsDirectory ∧ (s.deref node).readdir = .initrdReaddir then
    initrdReaddir s node index
  else none

def finddirFs (s : Fs) (node : Ref) (name : List (BitVec 8)) : Option Ref :=
  if (s.deref node).flags = fsDirectory ∧ (s.deref node).finddir = .initrdFinddir then
    initrdFinddir s node name
  else none

end Shigure.Initrd
