import Shigure.Initrd.LoaderLaws

/-!
# Records without the magic number

Which nodes a listing of the root and a search in it bring up.
-/

namespace Shigure.Initrd

open Libc

def validRecords (addr : Nat) (m : Mem) : List Nat :=
  (List.range (m.read32 addr)).filter fun i => (imageHeader addr m i).magic = initrdMagic

def headerName (addr : Nat) (m : Mem) (i : Nat) : List (BitVec 8) :=
  cString (imageHeader addr m i).name.toList

/-- The root lists the records with the magic number behind `dev`, a search in it can
return exactly their nodes, and each of these is what its record says. -/
structure OnlyValid (addr : Nat) (m : Mem) (prior : Prior) : Prop where
  listed : ∀ k, k + 1 < 2 ^ 32 →
    readdirFs (initrdInitialize addr m prior) .initrdRoot (.ofNat 32 (k + 1)) =
      (validRecords addr m)[k]?.map fun i => ⟨headerName addr m i, (imageHeader addr m i).number⟩
  found : ∀ i, (∃ name,
      finddirFs (initrdInitialize addr m prior) .initrdRoot name = some (.rootNode i)) ↔
    i ∈ validRecords addr m
  nodes : ∀ i ∈ validRecords addr m,
    let node := (initrdInitialize addr m prior).rootNodes i
    cString node.name = headerName addr m i ∧ node.length = (imageHeader addr m i).length ∧
      node.inode = (imageHeader addr m i).number

section
variable {addr : Nat} {m : Mem} {prior : Prior} {s : Fs}

theorem mem_validRecords :
    i ∈ validRecords addr m ↔ i < m.read32 addr ∧ (imageHeader addr m i).magic = initrdMagic := by
  simp [validRecords]

theorem Loaded.valid_node (h : Loaded addr m prior (m.read32 addr) s)
    (hi : i ∈ validRecords addr m) :
    s.rootNodes i = nodeOf (imageHeader addr m i) (prior.rootNodes i) := by
  rw [h.node, if_pos (mem_validRecords.mp hi)]

theorem Loaded.valid_name (h : Loaded addr m prior (m.read32 addr) s)
    (hi : i ∈ validRecords addr m) : cString (s.rootNodes i).name = headerName addr m i := by
  rw [h.valid_node hi, nodeOf_name, headerName]

/-- A search can return a node whose name no earlier node has. -/
theorem findable_iff (s : Fs) (i : Nat) :
    (∃ name, initrdFinddir s .initrdRoot name = some (.rootNode i)) ↔
      i < s.nnodes ∧ cString (s.rootNodes i).name ≠ cString (text "dev") ∧
        ∀ j, j < i → cString (s.rootNodes i).name ≠ cString (s.rootNodes j).name := by
  simp only [finddir_node]
  constructor
  · rintro ⟨name, hdev, hi, hname, hfirst⟩
    rw [← hname]
    exact ⟨hi, hdev, hfirst⟩
  · rintro ⟨hi, hdev, hfirst⟩
    exact ⟨(s.rootNodes i).name, hdev, hi, rfl, hfirst⟩

theorem length_validRecords_lt (h : ¬ ∀ i, i < m.read32 addr →
    (imageHeader addr m i).magic = initrdMagic) :
    (validRecords addr m).length < m.read32 addr := by
  have hle : (validRecords addr m).length ≤ m.read32 addr := by
    have := List.length_filter_le (fun i => decide ((imageHeader addr m i).magic = initrdMagic))
      (List.range (m.read32 addr))
    rwa [List.length_range] at this
  refine Nat.lt_of_le_of_ne hle fun heq => h ?_
  intro i hi
  have hall := List.length_filter_eq_length_iff.mp (heq.trans List.length_range.symm)
  simpa using hall i (List.mem_range.mpr hi)

end

structure NamesDiffer (addr : Nat) (m : Mem) : Prop where
  noDev : ∀ i, i < m.read32 addr → headerName addr m i ≠ text "dev"
  differ : ∀ i j, i < j → j < m.read32 addr → headerName addr m i ≠ headerName addr m j

theorem cString_dev : cString (text "dev") = text "dev" := by decide

theorem onlyValid_of_all {addr : Nat} {m : Mem} (prior : Prior)
    (hmagic : ∀ i, i < m.read32 addr → (imageHeader addr m i).magic = initrdMagic)
    (hnames : NamesDiffer addr m) : OnlyValid addr m prior := by
  have hl := initialize_loaded addr m prior
  have hmem : ∀ i, i < m.read32 addr → i ∈ validRecords addr m :=
    fun i hi => mem_validRecords.mpr ⟨hi, hmagic i hi⟩
  have hall : validRecords addr m = List.range (m.read32 addr) := by
    apply List.filter_eq_self.mpr
    intro i hi
    simpa using hmagic i (List.mem_range.mp hi)
  refine ⟨?_, ?_, ?_⟩
  · intro k hk
    rw [hl.readdirFs, readdir_node _ hk, hl.nnodes, hall]
    by_cases hkn : k < m.read32 addr
    · rw [if_pos hkn, List.getElem?_range hkn, hl.valid_name (hmem k hkn),
        hl.valid_node (hmem k hkn)]
      rfl
    · rw [if_neg hkn, List.getElem?_eq_none (by simpa using hkn)]
      rfl
  · intro i
    simp only [hl.finddirFs, findable_iff, hl.nnodes, cString_dev]
    constructor
    · rintro ⟨hi, -, -⟩
      exact hmem i hi
    · intro hi
      have hin := (mem_validRecords.mp hi).1
      rw [hl.valid_name hi]
      refine ⟨hin, hnames.noDev i hin, ?_⟩
      intro j hj
      rw [hl.valid_name (hmem j (by omega))]
      exact (hnames.differ j i hj hin).symm
  · intro i hi
    refine ⟨hl.valid_name hi, ?_, ?_⟩
    · rw [hl.valid_node hi]
      rfl
    · rw [hl.valid_node hi]
      rfl

/-- Records without the magic number stay out of sight exactly if there are none, and
the nodes of the others can all be found exactly if their names differ and none is
`dev`. -/
theorem only_valid_iff (addr : Nat) (m : Mem) (prior : Prior) :
    OnlyValid addr m prior ↔
      (∀ i, i < m.read32 addr → (imageHeader addr m i).magic = initrdMagic) ∧
        NamesDiffer addr m := by
  have hl := initialize_loaded addr m prior
  have hn : m.read32 addr < 2 ^ 32 := Mem.read32_lt m addr
  constructor
  · intro h
    have hmagic : ∀ i, i < m.read32 addr → (imageHeader addr m i).magic = initrdMagic := by
      by_contra hbad
      have hlt := length_validRecords_lt hbad
      have hlisted := h.listed (validRecords addr m).length (by omega)
      rw [hl.readdirFs, readdir_node _ (by omega), hl.nnodes, if_pos hlt,
        List.getElem?_eq_none (Nat.le_refl _)] at hlisted
      cases hlisted
    have hmem : ∀ i, i < m.read32 addr → i ∈ validRecords addr m :=
      fun i hi => mem_validRecords.mpr ⟨hi, hmagic i hi⟩
    have hfind : ∀ i, i < m.read32 addr → headerName addr m i ≠ text "dev" ∧
        ∀ j, j < i → headerName addr m i ≠ headerName addr m j := by
      intro i hi
      have hf := (h.found i).mpr (hmem i hi)
      simp only [hl.finddirFs, findable_iff, hl.valid_name (hmem i hi), cString_dev] at hf
      refine ⟨hf.2.1, fun j hj => ?_⟩
      rw [← hl.valid_name (hmem j (by omega))]
      exact hf.2.2 j hj
    exact ⟨hmagic, fun i hi => (hfind i hi).1, fun i j hij hj => ((hfind j hj).2 i hij).symm⟩
  · rintro ⟨hmagic, hnames⟩
    exact onlyValid_of_all prior hmagic hnames

/-- One record, without the magic number, at address 0. -/
def badRecord : Mem := Mem.store (fun _ => 0) 0 [1, 0, 0, 0]

def staleNode : FsNode :=
  ⟨[0x78, 0], 0, 0, 0, 0, 7, 0, 0, .null, .null, .null, .null, .null, .null, 0⟩

/-- The root lists the node that the record did not fill. -/
theorem stale_node_listed : ¬ OnlyValid 0 badRecord ⟨staleNode, staleNode, fun _ => staleNode⟩ := by
  intro h
  have hlisted := h.listed 0 (by decide)
  revert hlisted
  decide +kernel

end Shigure.Initrd
