import Shigure.Initrd.Loader

/-!
# What the loader leaves

The nodes, the table and the rest of memory after each round of the loop, as
functions of the image and of what the nodes' memory had.
-/

namespace Shigure.Initrd

open Libc

def imageHeader (addr : Nat) (m : Mem) (i : Nat) : FileHeader :=
  fileHeaderAt m (addr + sizeofHeader + sizeofFileHeader * i)

/-- The first `k` rounds of the loop are done. -/
structure Loaded (addr : Nat) (m : Mem) (prior : Prior) (k : Nat) (s : Fs) : Prop where
  fileHeaders : s.fileHeaders = addr + sizeofHeader
  root : s.root = directoryNode "root" prior.root
  dev : s.dev = directoryNode "dev" prior.dev
  nnodes : s.nnodes = m.read32 addr
  node : ∀ i, s.rootNodes i =
    if i < k ∧ (imageHeader addr m i).magic = initrdMagic then
      nodeOf (imageHeader addr m i) (prior.rootNodes i)
    else prior.rootNodes i
  header : ∀ i, s.fileHeader i =
    if i < k ∧ (imageHeader addr m i).magic = initrdMagic then
      { imageHeader addr m i with offset := (imageHeader addr m i).offset + .ofNat 32 addr }
    else imageHeader addr m i
  outside : ∀ x, x < addr + sizeofHeader ∨ addr + sizeofHeader + sizeofFileHeader * k ≤ x →
    s.mem x = m x

theorem fileHeaderAt_setOffset (m : Mem) (a : Nat) (v : BitVec 32) :
    fileHeaderAt (m.write32 (a + 68) v.toNat) a = { fileHeaderAt m a with offset := v } := by
  have hout : ∀ x, x < a + 68 ∨ a + 72 ≤ x → (m.write32 (a + 68) v.toNat) x = m x :=
    fun x hx => Mem.write32_outside m (by omega)
  have hword : ∀ k, 72 ≤ k → (m.write32 (a + 68) v.toNat).read32 (a + k) = m.read32 (a + k) :=
    fun k hk => Mem.read32_write32_apart m (by omega)
  have hname : ∀ i : Fin 64, (m.write32 (a + 68) v.toNat) (a + 2 + i) = m (a + 2 + i) :=
    fun i => hout _ (by omega)
  simp only [fileHeaderAt, hword 72 (by omega), hword 76 (by omega), hword 80 (by omega), hname,
    hout a (by omega), hout (a + 1) (by omega), hout (a + 84) (by omega),
    Mem.read32_write32 m (a + 68) v.isLt, BitVec.ofNat_toNat, BitVec.setWidth_eq]

theorem fileHeader_apart (m : Mem) (h : i ≠ j) :
    fileHeaderAt (m.write32 (a + sizeofFileHeader * j + 68) v) (a + sizeofFileHeader * i) =
      fileHeaderAt m (a + sizeofFileHeader * i) := by
  apply fileHeaderAt_congr
  intro x h1 h2
  apply Mem.write32_outside
  simp only [sizeofFileHeader] at *
  omega

theorem lt_succ_and_iff (h : i ≠ k) (p : Prop) : i < k + 1 ∧ p ↔ i < k ∧ p := by
  constructor
  · rintro ⟨hi, hp⟩
    exact ⟨by omega, hp⟩
  · rintro ⟨hi, hp⟩
    exact ⟨by omega, hp⟩

theorem Loaded.skip (h : Loaded addr m prior k s)
    (hv : (imageHeader addr m k).magic ≠ initrdMagic) : Loaded addr m prior (k + 1) s := by
  have hcond : ∀ i, (i < k + 1 ∧ (imageHeader addr m i).magic = initrdMagic) ↔
      (i < k ∧ (imageHeader addr m i).magic = initrdMagic) := by
    intro i
    by_cases hi : i = k
    · subst hi
      simp [hv]
    · exact lt_succ_and_iff hi _
  refine ⟨h.fileHeaders, h.root, h.dev, h.nnodes, ?_, ?_, ?_⟩
  · intro i
    simp only [hcond, h.node]
  · intro i
    simp only [hcond, h.header]
  · intro x hx
    exact h.outside x (by simp only [sizeofFileHeader] at *; omega)

theorem Loaded.step (h : Loaded addr m prior k s) :
    Loaded addr m prior (k + 1) (loadHeader addr s k) := by
  have hk : s.fileHeader k = imageHeader addr m k := by
    rw [h.header, if_neg (by omega)]
  have hnode : s.rootNodes k = prior.rootNodes k := by
    rw [h.node, if_neg (by omega)]
  unfold loadHeader
  simp only [hk, hnode]
  by_cases hv : (imageHeader addr m k).magic = initrdMagic
  · rw [if_neg (by simpa using hv)]
    refine ⟨h.fileHeaders, h.root, h.dev, h.nnodes, ?_, ?_, ?_⟩
    · intro i
      by_cases hi : i = k
      · subst hi
        simp [hv]
      · simp only [hi, ↓reduceIte, lt_succ_and_iff hi, h.node]
    · intro i
      change fileHeaderAt (s.mem.write32 (s.fileHeaders + sizeofFileHeader * k + 68) _)
        (s.fileHeaders + sizeofFileHeader * i) = _
      by_cases hi : i = k
      · subst hi
        rw [if_pos ⟨by omega, hv⟩, ← hk, fileHeaderAt_setOffset]
        rfl
      · simp only [lt_succ_and_iff hi]
        rw [← h.header i]
        exact fileHeader_apart _ hi
    · intro x hx
      change (s.mem.write32 (s.fileHeaders + sizeofFileHeader * k + 68) _) x = m x
      rw [Mem.write32_outside, h.outside x]
      all_goals
        simp only [h.fileHeaders, sizeofFileHeader, sizeofHeader] at *
        omega
  · rw [if_pos (by simpa using hv)]
    exact h.skip hv

theorem initialize_loaded (addr : Nat) (m : Mem) (prior : Prior) :
    Loaded addr m prior (m.read32 addr) (initrdInitialize addr m prior) := by
  unfold initrdInitialize
  simp only
  generalize hs : (Fs.mk m (addr + sizeofHeader) (directoryNode "root" prior.root)
    (directoryNode "dev" prior.dev) prior.rootNodes (m.read32 addr) none) = s
  have h0 : Loaded addr m prior 0 s := by
    subst hs
    exact ⟨rfl, rfl, rfl, rfl, by simp, by simp [Fs.fileHeader, imageHeader], by simp⟩
  have hall : ∀ k, Loaded addr m prior k ((List.range k).foldl (loadHeader addr) s) := by
    intro k
    induction k with
    | zero => exact h0
    | succ k ih =>
      rw [List.range_succ, List.foldl_append]
      exact ih.step
  exact hall _

-- ---------------------------------------------------------------------------
-- The nodes
-- ---------------------------------------------------------------------------

section
variable {addr : Nat} {m : Mem} {prior : Prior} {k i : Nat} {s : Fs}

theorem nodeOf_name (h : FileHeader) (prior : FsNode) :
    cString (nodeOf h prior).name = cString h.name.toList :=
  cString_strcpy _ _

theorem Loaded.readdirFs (h : Loaded addr m prior k s) (index : BitVec 32) :
    Initrd.readdirFs s .initrdRoot index = initrdReaddir s .initrdRoot index := by
  unfold Initrd.readdirFs
  rw [Fs.deref, h.root]
  rfl

theorem Loaded.finddirFs (h : Loaded addr m prior k s) (name : List (BitVec 8)) :
    Initrd.finddirFs s .initrdRoot name = initrdFinddir s .initrdRoot name := by
  unfold Initrd.finddirFs
  rw [Fs.deref, h.root]
  rfl

end

theorem readdir_dev (s : Fs) : initrdReaddir s .initrdRoot 0 = some ⟨text "dev", 0⟩ := rfl

theorem readdir_node (s : Fs) (hk : k + 1 < 2 ^ 32) :
    initrdReaddir s .initrdRoot (.ofNat 32 (k + 1)) =
      if k < s.nnodes then some ⟨cString (s.rootNodes k).name, (s.rootNodes k).inode⟩ else none := by
  have hne : BitVec.ofNat 32 (k + 1) ≠ 0 := by
    intro h
    have := congrArg BitVec.toNat h
    simp at this
    omega
  have hsub : (BitVec.ofNat 32 (k + 1) - 1).toNat = k := by
    have hpred : BitVec.ofNat 32 (k + 1) - 1 = BitVec.ofNat 32 k := by
      rw [BitVec.ofNat_add]
      exact BitVec.add_sub_cancel _ _
    rw [hpred, BitVec.toNat_ofNat, Nat.mod_eq_of_lt (by omega)]
  simp only [initrdReaddir, hne, and_false, ↓reduceIte, hsub]
  by_cases hn : k < s.nnodes
  · rw [if_neg (by omega), if_pos hn]
  · rw [if_pos (by omega), if_neg hn]

theorem searchNodes_eq_some (s : Fs) (name : List (BitVec 8)) (start k : Nat) :
    searchNodes s name start k = some i ↔
      start ≤ i ∧ i < start + k ∧ cString name = cString (s.rootNodes i).name ∧
        ∀ j, start ≤ j → j < i → cString name ≠ cString (s.rootNodes j).name := by
  induction k generalizing start with
  | zero =>
    simp only [searchNodes, reduceCtorEq, false_iff]
    omega
  | succ k ih =>
    unfold searchNodes
    simp only [strcmp_eq_zero]
    split
    · rename_i heq
      constructor
      · intro h
        obtain rfl := Option.some.inj h
        exact ⟨Nat.le_refl _, by omega, heq, fun j h1 h2 => by omega⟩
      · rintro ⟨h1, -, -, h4⟩
        obtain rfl : start = i := by
          by_contra hne
          exact h4 start (Nat.le_refl _) (by omega) heq
        rfl
    · rename_i hne
      rw [ih]
      constructor
      · rintro ⟨h1, h2, h3, h4⟩
        refine ⟨by omega, by omega, h3, ?_⟩
        intro j hj hji
        by_cases hjs : j = start
        · subst hjs
          exact hne
        · exact h4 j (by omega) hji
      · rintro ⟨h1, h2, h3, h4⟩
        have hi : i ≠ start := by
          rintro rfl
          exact hne h3
        exact ⟨by omega, by omega, h3, fun j hj hji => h4 j (by omega) hji⟩

theorem finddir_node (s : Fs) (name : List (BitVec 8)) :
    initrdFinddir s .initrdRoot name = some (.rootNode i) ↔
      cString name ≠ cString (text "dev") ∧ i < s.nnodes ∧
        cString name = cString (s.rootNodes i).name ∧
          ∀ j, j < i → cString name ≠ cString (s.rootNodes j).name := by
  unfold initrdFinddir
  simp only [strcmp_eq_zero, true_and]
  split
  · rename_i h
    simp [h]
  · rename_i h
    rw [Option.map_eq_some_iff]
    constructor
    · rintro ⟨i', hs, hi⟩
      obtain rfl := Ref.rootNode.inj hi
      obtain ⟨-, h2, h3, h4⟩ := (searchNodes_eq_some s name 0 _).mp hs
      exact ⟨h, by omega, h3, fun j hj => h4 j (Nat.zero_le _) hj⟩
    · rintro ⟨-, h2, h3, h4⟩
      refine ⟨i, (searchNodes_eq_some s name 0 _).mpr ?_, rfl⟩
      exact ⟨Nat.zero_le _, by omega, h3, fun j _ hj => h4 j hj⟩

end Shigure.Initrd
