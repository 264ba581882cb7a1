import Shigure.Lib.Window
import Shigure.Paging.Serving
import Shigure.Process.Runs

/-!
# The stack that moves

`move_stack` maps the pages of the new stack, copies the stack of the boot to its end
and goes through all of its words: what points into the old stack is taken for a saved
base pointer. The chain of saved base pointers is the same afterwards, further up. Both
loops run to their ends; but no page is there if there was no memory for its table.
-/

namespace Shigure.Process

open Paging
open Pm (frameSize freeFrames)
open Vm (PageRequest pageSize)

def wordAt (s : VmState) (a : Nat) : Nat := s.phys.read32 (currentPhys a s)

/-- The base pointer that is found `k` calls up. -/
def savedBase (s : VmState) (ebp k : Nat) : Nat := (wordAt s)^[k] ebp

def stackPages (newStackStart size : Nat) : List PageRequest :=
  (List.range (size / pageSize + 1)).map fun k => ⟨newStackStart - k * pageSize, false, true⟩

def remapped (oldStackPtr initialEsp offset word : Nat) : Option Nat :=
  if oldStackPtr < word ∧ word < initialEsp then some (add32 word offset) else none

/-- The chain stays inside the old stack for `k` calls. -/
structure ChainInside (initialEsp : Nat) (r : Regs) (s : VmState) (k : Nat) : Prop where
  base : r.esp ≤ r.ebp ∧ r.ebp < initialEsp ∧ 4 ∣ r.ebp
  saved : ∀ i < k, r.esp < savedBase s r.ebp (i + 1) ∧ savedBase s r.ebp (i + 1) < initialEsp ∧
    4 ∣ savedBase s r.ebp (i + 1)

/-- The old stack is at the end of the new one, where its pages can be written; the chain
of base pointers is the old one, shifted. No page fault comes: the loop over the words
finds a page for each. -/
structure Relocated (newStackStart size initialEsp : Nat) (r : Regs) (s : VmState) (r' : Regs)
    (s' : VmState) : Prop where
  regs : r' = ⟨r.eip, add32 r.esp (sub32 newStackStart initialEsp),
    add32 r.ebp (sub32 newStackStart initialEsp)⟩
  words : ∀ a, r.esp ≤ a → a < initialEsp → 4 ∣ a →
    wordAt s' (add32 a (sub32 newStackStart initialEsp)) =
      if r.esp < wordAt s a ∧ wordAt s a < initialEsp then
        add32 (wordAt s a) (sub32 newStackStart initialEsp)
      else wordAt s a
  chain : ∀ k, ChainInside initialEsp r s k →
    savedBase s' r'.ebp k = add32 (savedBase s r.ebp k) (sub32 newStackStart initialEsp)
  writable : ∀ v, newStackStart - (initialEsp - r.esp) ≤ v → v < newStackStart →
    RwPage s' s'.currentPd v ∧
      anyOf ((s'.pageDirectories s'.currentPd).entries (pdIndex v)) pageRw = true
  touched : ∀ v, newStackStart - size < v → v ≤ newStackStart → Maps s' s'.currentPd v

def StackMoved (newStackStart size initialEsp : Nat) (r : Regs) (s : VmState) : Prop :=
  ∃ r' s', moveStack newStackStart size initialEsp r s = some (r', s') ∧
    Relocated newStackStart size initialEsp r s r' s'

section
variable {s s' s₁ : VmState} {a b f n fuel : Nat}

-- ---------------------------------------------------------------------------
-- The pages
-- ---------------------------------------------------------------------------

theorem stackPages_succ (a n : Nat) : stackPages (a + (n + 1) * pageSize) ((n + 1) * pageSize) =
    ⟨a + (n + 1) * pageSize, false, true⟩ :: stackPages (a + n * pageSize) (n * pageSize) := by
  have hcount : ∀ k, k * pageSize / pageSize = k := fun k => Nat.mul_div_cancel k (by decide)
  rw [stackPages, stackPages, hcount, hcount, List.range_succ_eq_map, List.map_cons, List.map_map]
  refine congrArg₂ List.cons ?_ (List.map_congr_left fun k _ => ?_)
  · rw [Nat.zero_mul, Nat.sub_zero]
  · rw [Function.comp_apply, Nat.succ_mul, Nat.succ_mul, ← Nat.add_assoc, Nat.add_sub_add_right]

theorem mapStackPage_bind {i : Nat} {rest : VmState → Option VmState} {pages : List PageRequest}
    (h : ∀ s₂ : VmState, s₂.currentPd = s.currentPd → rest s₂ = serve s.currentPd pages s₂) :
    (mapStackPage i s).bind rest = serve s.currentPd (⟨i, false, true⟩ :: pages) s := by
  rw [mapStackPage, serve]
  simp only [Option.bind_eq_bind, Option.bind_assoc]
  refine Option.bind_congr fun x hx => Option.bind_congr fun s₂ h2 => h s₂ ?_
  rw [(allocFrame_kept h2).currentPd, (getPage_kept hx).1.currentPd]

theorem mapStack_eq (ha : pageSize ≤ a) (hfit : a + n * pageSize < wordSize) (hfuel : n + 1 < fuel)
    (s : VmState) : countDown pageSize (fun i => i ≥ a) mapStackPage fuel (a + n * pageSize) s =
      serve s.currentPd (stackPages (a + n * pageSize) (n * pageSize)) s := by
  induction n generalizing fuel s with
  | zero =>
    obtain ⟨fuel, rfl⟩ : ∃ k, fuel = k + 2 := ⟨fuel - 2, by omega⟩
    simp only [Nat.zero_mul, Nat.add_zero] at *
    have hlast : sub32 a pageSize = a - pageSize := sub32_eq ha hfit
    have hdone : ¬ a - pageSize ≥ a :=
      Nat.not_le.mpr (Nat.sub_lt ((show 0 < pageSize by decide).trans_le ha) (by decide))
    rw [countDown, if_pos (decide_eq_true (Nat.le_refl a)), hlast]
    refine mapStackPage_bind fun s₂ _ => ?_
    rw [countDown, if_neg (mt of_decide_eq_true hdone)]
    rfl
  | succ n ih =>
    obtain ⟨fuel, rfl⟩ := Nat.exists_eq_add_one_of_ne_zero (Nat.ne_of_gt ((Nat.zero_lt_succ _).trans hfuel))
    have hnext : sub32 (a + (n + 1) * pageSize) pageSize = a + n * pageSize := by
      rw [Nat.succ_mul] at *
      rw [sub32_eq (by omega) hfit]
      omega
    rw [countDown, if_pos (decide_eq_true (Nat.le_add_right _ _)), hnext, stackPages_succ]
    refine mapStackPage_bind fun s₂ hcurrent => ?_
    rw [Nat.succ_mul] at hfit
    rw [ih (by omega) (Nat.lt_of_succ_lt_succ hfuel) s₂, hcurrent]

-- ---------------------------------------------------------------------------
-- Where a word is
-- ---------------------------------------------------------------------------

theorem currentPhys_eq (hw : World s) (hpd : s.currentPd ∈ s.directories) (ha : a < wordSize)
    (hf : frameAt s s.currentPd a = some f) : currentPhys a s = f * frameSize + a % frameSize := by
  have hm : Maps s s.currentPd a := by rw [Maps, hf]; rfl
  rw [currentPhys, findPage_slotAt (hw.maps_table hpd ha hm)]
  rw [show pteToPfn (s.entry (slotAt s s.currentPd a)) = f from (frameAt_eq_some.mp hf).2.2]

def Reached (s : VmState) (a : Nat) : Prop := 4 ∣ a ∧ a < wordSize ∧ Maps s s.currentPd a

theorem currentPhys_inj (hw : World s) (hpd : s.currentPd ∈ s.directories) (ha : a < wordSize)
    (hb : b < wordSize) (hma : Maps s s.currentPd a) (hmb : Maps s s.currentPd b)
    (h : currentPhys a s = currentPhys b s) : a = b := by
  obtain ⟨f, hf⟩ := Option.isSome_iff_exists.mp hma
  obtain ⟨g, hg⟩ := Option.isSome_iff_exists.mp hmb
  rw [currentPhys_eq hw hpd ha hf, currentPhys_eq hw hpd hb hg] at h
  have hfg : f = g ∧ a % frameSize = b % frameSize := by
    simp only [frameSize] at *
    omega
  have hslot := hw.owned.apart _ _ (hw.table (hw.maps_table hpd ha hma))
    (hw.table (hw.maps_table hpd hb hmb)) (.inr (maps_iff.mp hma).2) (.inr (maps_iff.mp hmb).2)
    ((frameAt_eq_some.mp hf).2.2.trans (hfg.1.trans (frameAt_eq_some.mp hg).2.2.symm))
  have hpage := hw.slotAt_inj hpd ha hb (hw.maps_table hpd hb hmb) hslot
  rw [← Nat.div_add_mod a frameSize, ← Nat.div_add_mod b frameSize, hpage, hfg.2]

theorem currentPhys_add (hw : World s) (hpd : s.currentPd ∈ s.directories) (h : Reached s a) {i : Nat}
    (hi : i < 4) : a + i < wordSize ∧ Maps s s.currentPd (a + i) ∧
      currentPhys (a + i) s = currentPhys a s + i := by
  obtain ⟨hal, hlt, hm⟩ := h
  obtain ⟨f, hf⟩ := Option.isSome_iff_exists.mp hm
  have hpage : (a + i) / frameSize = a / frameSize ∧ (a + i) % frameSize = a % frameSize + i ∧
      a + i < wordSize := by
    simp only [frameSize, wordSize] at *
    omega
  have hf' : frameAt s s.currentPd (a + i) = some f := (frameAt_same_page hpage.1).trans hf
  refine ⟨hpage.2.2, ?_, ?_⟩
  · rw [Maps, hf']
    rfl
  · rw [currentPhys_eq hw hpd hpage.2.2 hf', currentPhys_eq hw hpd hlt hf, hpage.2.1, Nat.add_assoc]

theorem wordsApart (hw : World s) (hpd : s.currentPd ∈ s.directories) :
    Mem.WordsApart (currentPhys · s) (Reached s) := by
  rintro a b ⟨hal, halt, hma⟩ ⟨hbl, hblt, hmb⟩ hne
  have hphys : currentPhys a s ≠ currentPhys b s :=
    fun he => hne (currentPhys_inj hw hpd halt hblt hma hmb he)
  obtain ⟨f, hf⟩ := Option.isSome_iff_exists.mp hma
  obtain ⟨g, hg⟩ := Option.isSome_iff_exists.mp hmb
  dsimp only
  rw [currentPhys_eq hw hpd halt hf, currentPhys_eq hw hpd hblt hg] at hphys ⊢
  simp only [frameSize] at *
  omega

-- ---------------------------------------------------------------------------
-- The two loops over the contents
-- ---------------------------------------------------------------------------

theorem memcpy_eq {dst src : Nat} (hdst : dst + n < wordSize) (hsrc : src + n < wordSize) :
    memcpy dst src n s = { s with phys := Mem.copyVia (currentPhys · s) dst src n s.phys } := by
  induction n generalizing dst src s with
  | zero => rfl
  | succ n ih =>
    rw [memcpy, add32_eq (by omega), add32_eq (by omega), ih (by omega) (by omega)]
    rfl

theorem remapWord_eq (oldStackPtr initialEsp offset ptr : Nat) (s : VmState) :
    remapWord oldStackPtr initialEsp offset ptr s = some { s with
      phys := Mem.updateWord (remapped oldStackPtr initialEsp offset) (currentPhys ptr s) s.phys } := by
  by_cases h : oldStackPtr < s.phys.read32 (currentPhys ptr s) ∧
      s.phys.read32 (currentPhys ptr s) < initialEsp
  · simp only [remapWord, Mem.updateWord, remapped, if_pos h]
  · simp only [remapWord, Mem.updateWord, remapped, if_neg h]

theorem remapDown_eq {oldStackPtr initialEsp offset : Nat} (hfit : a + 4 * n < wordSize)
    (hfuel : n < fuel) (s : VmState) : countDown 4 (fun ptr => ptr > a)
      (remapWord oldStackPtr initialEsp offset) fuel (a + 4 * n) s = some { s with
        phys := Mem.updateDown (currentPhys · s) (remapped oldStackPtr initialEsp offset) a n s.phys } := by
  induction n generalizing fuel s with
  | zero =>
    obtain ⟨fuel, rfl⟩ := Nat.exists_eq_add_one_of_ne_zero (Nat.ne_of_gt hfuel)
    have hdone : ¬ a + 4 * 0 > a := Nat.lt_irrefl a
    rw [countDown, if_neg (mt of_decide_eq_true hdone)]
    rfl
  | succ n ih =>
    obtain ⟨fuel, rfl⟩ := Nat.exists_eq_add_one_of_ne_zero (Nat.ne_of_gt ((Nat.zero_lt_succ _).trans hfuel))
    have hnext : sub32 (a + 4 * (n + 1)) 4 = a + 4 * n := by
      rw [sub32_eq (by omega) hfit]
      omega
    rw [countDown, if_pos (decide_eq_true (by omega)), hnext, remapWord_eq, Option.bind_some,
      ih (by omega) (Nat.lt_of_succ_lt_succ hfuel)]
    rfl

end

-- ---------------------------------------------------------------------------
-- One call
-- ---------------------------------------------------------------------------

/-- The old stack is there, and apart from the pages of the new one; none of those is
mapped below the start of the stack. -/
structure Movable (newStackStart size initialEsp : Nat) (r : Regs) (s : VmState) : Prop where
  start : pageSize ∣ newStackStart
  pages : pageSize ∣ size
  room : size + pageSize ≤ newStackStart
  limit : newStackStart < wordSize
  old : r.esp ≤ initialEsp ∧ initialEsp < wordSize ∧ 4 ∣ r.esp ∧ 4 ∣ initialEsp
  depth : initialEsp - r.esp < size
  there : ∀ a, r.esp ≤ a → a < initialEsp → Maps s s.currentPd a
  apart : ∀ a, r.esp ≤ a → a < initialEsp → a < newStackStart - size ∨ newStackStart + pageSize ≤ a
  unmapped : ∀ v, newStackStart - size ≤ v → v < newStackStart → frameAt s s.currentPd v = none

section
variable {newStackStart size initialEsp a v : Nat} {r : Regs} {s s₁ : VmState}

theorem mem_stackPages : v ∈ addrs (stackPages newStackStart size) ↔
    ∃ k ≤ size / pageSize, newStackStart - k * pageSize = v := by
  simp only [addrs, stackPages, List.map_map, List.mem_map, List.mem_range, Function.comp_apply,
    Nat.lt_succ_iff]

section
variable (h : Movable newStackStart size initialEsp r s)
include h

theorem Movable.page_lt (hv : v ∈ addrs (stackPages newStackStart size)) :
    newStackStart - size ≤ v ∧ v ≤ newStackStart ∧ v < wordSize := by
  obtain ⟨k, hk, rfl⟩ := mem_stackPages.mp hv
  have hlimit := h.limit
  have := Nat.div_mul_le_self size pageSize
  have := Nat.mul_le_mul_right pageSize hk
  omega

theorem Movable.pages_apart : (addrs (stackPages newStackStart size)).Pairwise
    fun u v => u / frameSize ≠ v / frameSize := by
  have hroom := h.room
  have hstart := h.start
  rw [addrs, stackPages, List.map_map, List.pairwise_map]
  refine (List.pairwise_lt_range.imp_of_mem fun {i j} _ hj hij => ?_)
  rw [List.mem_range] at hj
  simp only [Function.comp_apply, frameSize, pageSize] at *
  omega

theorem Movable.page_mem (hlo : newStackStart - size ≤ v) (hhi : v < newStackStart + pageSize) :
    v / frameSize * frameSize ∈ addrs (stackPages newStackStart size) := by
  have hstart := h.start
  have hroom := h.room
  have hpages := h.pages
  refine mem_stackPages.mpr ⟨newStackStart / frameSize - v / frameSize, ?_, ?_⟩
  · simp only [frameSize, pageSize] at *
    omega
  · simp only [frameSize, pageSize] at *
    omega

theorem Movable.shifted (hhi : a ≤ initialEsp) (hlo : r.esp ≤ a) :
    add32 a (sub32 newStackStart initialEsp) = newStackStart - (initialEsp - a) := by
  obtain ⟨-, hinit, -⟩ := h.old
  have hdepth := h.depth
  have hroom := h.room
  have hlimit := h.limit
  simp only [add32, sub32, wordSize] at *
  omega

structure Mapped (newStackStart size : Nat) (s s₁ : VmState) : Prop where
  world : World s₁
  directory : s₁.currentPd ∈ s₁.directories
  currentPd : s₁.currentPd = s.currentPd
  phys : s₁.phys = s.phys
  pages : ∀ v, newStackStart - size ≤ v → v < newStackStart + pageSize → Maps s₁ s₁.currentPd v
  kept : ∀ v < wordSize, v < newStackStart - size ∨ newStackStart + pageSize ≤ v →
    frameAt s₁ s₁.currentPd v = frameAt s s.currentPd v
  writable : ∀ v, newStackStart - size ≤ v → v < newStackStart →
    frameAt s s.currentPd v = none → RwPage s₁ s₁.currentPd v

theorem Movable.mapped (hw : World s) (hpd : s.currentPd ∈ s.directories)
    (hs : serve s.currentPd (stackPages newStackStart size) s = some s₁)
    (hall : ∀ r ∈ stackPages newStackStart size, Maps s₁ s.currentPd r.vaddr) :
    Mapped newStackStart size s s₁ := by
  have hkept := serve_kept hs
  have hlt : ∀ v ∈ addrs (stackPages newStackStart size), v < wordSize := fun v hv => (h.page_lt hv).2.2
  have hmaps : ∀ v ∈ addrs (stackPages newStackStart size), Maps s₁ s.currentPd v := by
    intro v hv
    obtain ⟨r, hr, rfl⟩ := List.mem_map.mp hv
    exact hall r hr
  have hserved := serve_all hw hpd hlt h.pages_apart hs hmaps
  have hrw : ∀ r ∈ stackPages newStackStart size, r.writable = true := by
    intro r hr
    obtain ⟨k, -, rfl⟩ := List.mem_map.mp hr
    rfl
  have hwrite := serve_rw hw hpd hlt h.pages_apart hrw hs hmaps
  have hpage : ∀ v, v / frameSize = v / frameSize * frameSize / frameSize := by
    intro v
    rw [Nat.mul_div_cancel _ (by decide)]
  refine ⟨hserved.world, hkept.currentPd ▸ hserved.directory, hkept.currentPd, hkept.phys,
    fun v hlo hhi => ?_, fun v hv hout => ?_, fun v hlo hhi hnone => ?_⟩
  · rw [hkept.currentPd, Maps, frameAt_same_page (hpage v)]
    exact hmaps _ (h.page_mem hlo hhi)
  · rw [hkept.currentPd]
    refine hserved.kept v hv fun u hu => ?_
    have hu := h.page_lt hu
    have hstart := h.start
    have hpages := h.pages
    have hroom := h.room
    simp only [frameSize, pageSize] at *
    omega
  · rw [hkept.currentPd]
    refine (hwrite _ (h.page_mem hlo (hhi.trans (Nat.lt_add_of_pos_right (by decide)))) ?_).same_page
      (hpage v)
    rw [← frameAt_same_page (hpage v)]
    exact hnone

def movedPhys (newStackStart size initialEsp : Nat) (r : Regs) (s : VmState) : Mem :=
  Mem.updateDown (currentPhys · s) (remapped r.esp initialEsp (sub32 newStackStart initialEsp))
    (newStackStart - size) (size / 4) (Mem.copyVia (currentPhys · s)
      (newStackStart - (initialEsp - r.esp)) r.esp (initialEsp - r.esp) s.phys)

theorem Movable.moveStack_eq :
    moveStack newStackStart size initialEsp r s =
      (serve s.currentPd (stackPages newStackStart size) s).map fun s₁ =>
        (⟨r.eip, add32 r.esp (sub32 newStackStart initialEsp),
          add32 r.ebp (sub32 newStackStart initialEsp)⟩,
        { s₁ with phys := movedPhys newStackStart size initialEsp r s₁ }) := by
  obtain ⟨hesp, hinit, -⟩ := h.old
  have hdepth := h.depth
  have hroom := h.room
  have hlimit := h.limit
  have hlow : sub32 newStackStart size = newStackStart - size := sub32_eq (by omega) hlimit
  have hcount : size / pageSize * pageSize = size := Nat.div_mul_cancel h.pages
  have hmap := @mapStack_eq (newStackStart - size) (size / pageSize) loopFuel (by omega) (by omega)
    (by simp only [loopFuel, pageSize, wordSize] at *; omega) s
  rw [hcount, Nat.sub_add_cancel (by omega)] at hmap
  have hwords : newStackStart - size + 4 * (size / 4) = newStackStart := by
    have hpages := h.pages
    simp only [pageSize] at *
    omega
  unfold moveStack
  dsimp only
  rw [hlow, hmap, h.shifted hesp le_rfl, sub32_eq hesp hinit]
  cases serve s.currentPd (stackPages newStackStart size) s with
  | none => rfl
  | some s₁ =>
    have hremap := @remapDown_eq (newStackStart - size) (size / 4) wordSize r.esp initialEsp
      (sub32 newStackStart initialEsp) (by omega) (by omega)
      (memcpy (newStackStart - (initialEsp - r.esp)) r.esp (initialEsp - r.esp) s₁)
    rw [hwords] at hremap
    simp only [Option.bind_eq_bind, Option.bind_some, Option.map_some, hremap]
    rw [memcpy_eq (by omega) (by omega)]
    rfl

theorem Movable.currentPhys_old (hw : World s) (hpd : s.currentPd ∈ s.directories)
    (hm : Mapped newStackStart size s s₁) (hlo : r.esp ≤ a) (hhi : a < initialEsp) :
    Maps s₁ s₁.currentPd a ∧ currentPhys a s₁ = currentPhys a s := by
  have hlt : a < wordSize := hhi.trans h.old.2.1
  have hframe := hm.kept a hlt (h.apart a hlo hhi)
  have hthere := h.there a hlo hhi
  obtain ⟨f, hf⟩ := Option.isSome_iff_exists.mp hthere
  refine ⟨?_, ?_⟩
  · rw [Maps, hframe]
    exact hthere
  · rw [currentPhys_eq hw hpd hlt hf, currentPhys_eq hm.world hm.directory hlt (hframe.trans hf)]

theorem Movable.copied (hw : World s) (hpd : s.currentPd ∈ s.directories)
    (hm : Mapped newStackStart size s s₁) (hlo : r.esp ≤ a) (hhi : a < initialEsp) (hal : 4 ∣ a) :
    Mem.read32 (Mem.copyVia (currentPhys · s₁) (newStackStart - (initialEsp - r.esp)) r.esp
      (initialEsp - r.esp) s₁.phys) (currentPhys (newStackStart - (initialEsp - a)) s₁) =
      wordAt s a := by
  obtain ⟨hesp, hinit, hal', hal''⟩ := h.old
  have hdepth := h.depth
  have hroom := h.room
  have hlimit := h.limit
  have hstart := h.start
  obtain ⟨ha, hphys⟩ := h.currentPhys_old hw hpd hm hlo hhi
  have hnew : ∀ i < initialEsp - r.esp,
      newStackStart - (initialEsp - r.esp) + i < wordSize ∧
        Maps s₁ s₁.currentPd (newStackStart - (initialEsp - r.esp) + i) := by
    intro i hi
    exact ⟨by omega, hm.pages _ (by omega) (by omega)⟩
  have hold : ∀ i < initialEsp - r.esp, r.esp + i < wordSize ∧ Maps s₁ s₁.currentPd (r.esp + i) := by
    intro i hi
    exact ⟨by omega, (h.currentPhys_old hw hpd hm (by omega) (by omega)).1⟩
  have hinj : ∀ i < initialEsp - r.esp, ∀ j < initialEsp - r.esp,
      currentPhys (newStackStart - (initialEsp - r.esp) + i) s₁ =
        currentPhys (newStackStart - (initialEsp - r.esp) + j) s₁ → i = j := by
    intro i hi j hj he
    have := currentPhys_inj hm.world hm.directory (hnew i hi).1 (hnew j hj).1 (hnew i hi).2
      (hnew j hj).2 he
    omega
  have hapart : ∀ i < initialEsp - r.esp, ∀ j < initialEsp - r.esp,
      currentPhys (newStackStart - (initialEsp - r.esp) + i) s₁ ≠ currentPhys (r.esp + j) s₁ := by
    intro i hi j hj he
    have := currentPhys_inj hm.world hm.directory (hnew i hi).1 (hold j hj).1 (hnew i hi).2
      (hold j hj).2 he
    have := h.apart (r.esp + j) (by omega) (by omega)
    omega
  have hword : a + 4 ≤ initialEsp := by omega
  have hreached : Reached s₁ (newStackStart - (initialEsp - a)) := by
    refine ⟨?_, by omega, hm.pages _ (by omega) (by omega)⟩
    simp only [pageSize] at *
    omega
  rw [wordAt, ← hm.phys, ← hphys]
  refine Mem.read32_eq_of_bytes fun i hi => ?_
  have hsrc : a + i = r.esp + (a - r.esp + i) := by omega
  have hdst : newStackStart - (initialEsp - a) + i =
      newStackStart - (initialEsp - r.esp) + (a - r.esp + i) := by omega
  rw [← (currentPhys_add hm.world hm.directory hreached hi).2.2,
    ← (currentPhys_add hm.world hm.directory ⟨hal, hhi.trans hinit, ha⟩ hi).2.2, hsrc, hdst]
  exact Mem.copyVia_copied hinj hapart (by omega)

theorem Movable.moved (hw : World s) (hpd : s.currentPd ∈ s.directories)
    (hm : Mapped newStackStart size s s₁) (hlo : r.esp ≤ a) (hhi : a < initialEsp) (hal : 4 ∣ a) :
    wordAt { s₁ with phys := movedPhys newStackStart size initialEsp r s₁ }
      (newStackStart - (initialEsp - a)) =
        (remapped r.esp initialEsp (sub32 newStackStart initialEsp) (wordAt s a)).getD (wordAt s a) := by
  obtain ⟨hesp, hinit, -, hal'⟩ := h.old
  have hdepth := h.depth
  have hroom := h.room
  have hlimit := h.limit
  have hstart := h.start
  have hpages := h.pages
  have hreached : ∀ i < size / 4, Reached s₁ (newStackStart - size + 4 * (i + 1)) := by
    intro i hi
    refine ⟨?_, by omega, hm.pages _ (by omega) ?_⟩
    · simp only [pageSize] at *
      omega
    · simp only [pageSize] at *
      omega
  have hvalue : ∀ w x, remapped r.esp initialEsp (sub32 newStackStart initialEsp) w = some x →
      x < 2 ^ 32 := by
    intro w x hx
    rw [remapped] at hx
    split at hx
    · cases hx
      exact Nat.mod_lt _ (by decide)
    · cases hx
  obtain ⟨i, hi, hindex⟩ : ∃ i < size / 4,
      newStackStart - (initialEsp - a) = newStackStart - size + 4 * (i + 1) := by
    refine ⟨(size - (initialEsp - a)) / 4 - 1, ?_, ?_⟩
    · simp only [pageSize] at *
      omega
    · simp only [pageSize] at *
      omega
  have hupdate := Mem.updateDown_on (m := Mem.copyVia (currentPhys · s₁)
    (newStackStart - (initialEsp - r.esp)) r.esp (initialEsp - r.esp) s₁.phys)
    (wordsApart hm.world hm.directory) hvalue hreached hi
  rw [← hindex, h.copied hw hpd hm hlo hhi hal] at hupdate
  exact hupdate

end

/-- The words that are saved lead up the new stack as they led up the old one. -/
theorem chain_shifted {s' : VmState} {offset k : Nat}
    (hwords : ∀ a, r.esp ≤ a → a < initialEsp → 4 ∣ a → wordAt s' (add32 a offset) =
      if r.esp < wordAt s a ∧ wordAt s a < initialEsp then add32 (wordAt s a) offset else wordAt s a)
    (hk : ChainInside initialEsp r s k) :
    savedBase s' (add32 r.ebp offset) k = add32 (savedBase s r.ebp k) offset := by
  induction k with
  | zero => rfl
  | succ k ih =>
    have hinside : r.esp ≤ savedBase s r.ebp k ∧ savedBase s r.ebp k < initialEsp ∧
        4 ∣ savedBase s r.ebp k := by
      cases k with
      | zero => exact hk.base
      | succ k =>
        obtain ⟨hlo, hhi⟩ := hk.saved k (by omega)
        exact ⟨hlo.le, hhi⟩
    have hnext : ∀ (x : VmState) (b : Nat), savedBase x b (k + 1) = wordAt x (savedBase x b k) :=
      fun x b => Function.iterate_succ_apply' (wordAt x) k b
    obtain ⟨hlo, hhi, -⟩ := hk.saved k k.lt_succ_self
    rw [hnext] at hlo hhi
    rw [hnext, hnext, ih ⟨hk.base, fun i hi => hk.saved i (by omega)⟩,
      hwords _ hinside.1 hinside.2.1 hinside.2.2, if_pos ⟨hlo, hhi⟩]

theorem Movable.relocated (h : Movable newStackStart size initialEsp r s) (hw : World s)
    (hpd : s.currentPd ∈ s.directories) (hm : Mapped newStackStart size s s₁) :
    Relocated newStackStart size initialEsp r s ⟨r.eip,
      add32 r.esp (sub32 newStackStart initialEsp), add32 r.ebp (sub32 newStackStart initialEsp)⟩
      { s₁ with phys := movedPhys newStackStart size initialEsp r s₁ } := by
  have hroom := h.room
  have hlimit := h.limit
  have hdepth := h.depth
  have hwords : ∀ a, r.esp ≤ a → a < initialEsp → 4 ∣ a →
      wordAt { s₁ with phys := movedPhys newStackStart size initialEsp r s₁ }
        (add32 a (sub32 newStackStart initialEsp)) =
          if r.esp < wordAt s a ∧ wordAt s a < initialEsp then
            add32 (wordAt s a) (sub32 newStackStart initialEsp)
          else wordAt s a := by
    intro a hlo hhi hal
    rw [h.shifted hhi.le hlo, h.moved hw hpd hm hlo hhi hal, remapped]
    split
    · rfl
    · rfl
  refine ⟨rfl, hwords, fun k hk => chain_shifted hwords hk, fun v hlo hhi => ?_,
    fun v hlo hhi => hm.pages v hlo.le (hhi.trans_lt (Nat.lt_add_of_pos_right (by decide)))⟩
  have hlow : newStackStart - size ≤ v := by omega
  have hrw := hm.writable v hlow hhi (h.unmapped v hlow hhi)
  refine ⟨hrw, ?_⟩
  have hlt : v < wordSize := hhi.trans hlimit
  have h0 := hm.world.maps_table hm.directory hlt hrw.1
  rcases hm.world.pdes _ hm.directory _ (pdIndex_lt hlt) with ⟨hnone, -⟩ | ⟨-, -, hpde⟩
  · exact absurd hnone h0
  · exact hpde

section
variable (hw : World s) (hpd : s.currentPd ∈ s.directories)
  (h : Movable newStackStart size initialEsp r s)
  (hframes : size / pageSize + 1 ≤ (freeFrames s.frames).ncard)
include hw hpd h hframes

theorem stackPages_served_iff : (∃ s₁, serve s.currentPd (stackPages newStackStart size) s = some s₁ ∧
    ∀ q ∈ stackPages newStackStart size, Maps s₁ s.currentPd q.vaddr) ↔
      ProvidedIn s.currentPd (stackPages newStackStart size) s := by
  refine served_iff hw hpd ?_ fun q hq => (h.page_lt (List.mem_map_of_mem hq)).2.2
  rw [stackPages, List.length_map, List.length_range]
  exact hframes

/-- Each page is touched, so it must be there. -/
theorem Movable.provided (hmoved : StackMoved newStackStart size initialEsp r s) :
    ProvidedIn s.currentPd (stackPages newStackStart size) s := by
  obtain ⟨r', s', hmove, hr⟩ := hmoved
  rw [h.moveStack_eq] at hmove
  obtain ⟨s₁, hs, he⟩ := Option.map_eq_some_iff.mp hmove
  obtain ⟨rfl, rfl⟩ : _ = r' ∧ _ = s' := Prod.mk.inj he
  have hroom := h.room
  have hdepth := h.depth
  have htouched : ∀ v, newStackStart - size < v → v ≤ newStackStart → Maps s₁ s.currentPd v := by
    rw [← (serve_kept hs).currentPd]
    exact hr.touched
  refine (stackPages_served_iff hw hpd h hframes).mp ⟨s₁, hs, fun q hq => ?_⟩
  obtain ⟨hlo, hhi, -⟩ := h.page_lt (List.mem_map_of_mem hq)
  rcases hlo.lt_or_eq with hlt | heq
  · exact htouched _ hlt hhi
  · -- the last word that the loop looks at is in the last page
    have hpages := h.pages
    have hstart := h.start
    have hpage : q.vaddr / frameSize = (q.vaddr + 4) / frameSize := by
      simp only [frameSize, pageSize] at *
      omega
    rw [Maps, frameAt_same_page hpage]
    refine htouched _ (by omega) ?_
    simp only [pageSize] at *
    omega

theorem Movable.moves (hprovided : ProvidedIn s.currentPd (stackPages newStackStart size) s) :
    StackMoved newStackStart size initialEsp r s := by
  obtain ⟨s₁, hs, hall⟩ := (stackPages_served_iff hw hpd h hframes).mpr hprovided
  refine ⟨_, _, ?_, h.relocated hw hpd (h.mapped hw hpd hs hall)⟩
  rw [h.moveStack_eq, hs]
  rfl

/-- The stack is moved if and only if there is memory for the tables of its pages. -/
theorem stack_moved_iff : StackMoved newStackStart size initialEsp r s ↔
    ProvidedIn s.currentPd (stackPages newStackStart size) s :=
  ⟨h.provided hw hpd hframes, h.moves hw hpd hframes⟩

end

/-- A stack of 16 bytes at the start of `kheap`, for which there is a new page at
`0x40001000`. -/
theorem movable_small {k : Vm.KHeap.KState} {first p : Nat} (hb : SmallBoot k first p s) :
    Movable 0x40002000 0x1000 0xC0000010 ⟨0, 0xC0000000, 0xC0000008⟩ s := by
  have hw := hb.boots.world
  refine ⟨by decide, by decide, by decide, by decide, by decide, by decide, fun a hlo hhi => ?_,
    fun a hlo hhi => ?_, fun v hlo hhi => ?_⟩
  · exact hb.kheap_mapped hb.current hlo (Nat.lt_trans hhi (by decide))
  · exact .inr (Nat.le_trans (by decide) hlo)
  · have hlt : v < wordSize := Nat.lt_trans hhi (by decide)
    have hindex : pdIndex v = 256 := by
      simp only [pdIndex, Nat.shiftRight_eq_div_pow]
      omega
    refine frameAt_absent fun hp => ?_
    refine (hw.pdes _ hb.current _ (pdIndex_lt hlt)).present.mp hp ?_
    rw [hindex]
    exact hb.absent hb.current (by decide) (by decide) (by decide)

theorem smallPages_eq : stackPages 0x40002000 0x1000 =
    [⟨0x40002000, false, true⟩, ⟨0x40001000, false, true⟩] := rfl

theorem stack_moved_small : ∃ s, Boots 0x8000 0x1F0000 unbooted s ∧
    StackMoved 0x40002000 0x1000 0xC0000010 ⟨0, 0xC0000000, 0xC0000008⟩ s := by
  obtain ⟨k₁, k₂, k₃, k₄, h1, h2, -⟩ := firstHeap_blocks
  obtain ⟨first, p, s, hb⟩ := smallBoot h1
  have hframes : 0x1000 / pageSize + 1 ≤ (freeFrames s.frames).ncard :=
    (show 0x1000 / pageSize + 1 ≤ 30000 by decide).trans hb.frames_left
  refine ⟨s, hb.boots, (stack_moved_iff hb.boots.world hb.current (movable_small hb) hframes).mpr ?_⟩
  rw [smallPages_eq]
  obtain ⟨s₂, s₃, hp⟩ := page_made hb.kheap h2 (by decide)
    (show (s.pageDirectories s.currentPd).tables (pdIndex 0x40002000) = 0 from
      hb.absent hb.current (by decide) (by decide) (by decide)) hb.layout hb.least false true
  refine ⟨_, s₂, hp.getPage, fun he => absurd (congrArg Slot.table he) (by decide), fun s₃' h3 => ?_⟩
  obtain rfl := Option.some.inj (hp.allocFrame.symm.trans h3)
  have htable : (s₃.pageDirectories s.currentPd).tables (pdIndex 0x40001000) ≠ 0 := by
    rw [hp.table, if_pos ⟨rfl, rfl⟩]
    decide
  exact ⟨_, s₃, getPage_old htable, fun he => htable (congrArg Slot.table he), fun _ _ => trivial⟩

theorem firstHeap_full : ∃ k₁ a k₂ k₃,
    Vm.KHeap.ikmalloc pageDirectorySize true firstHeap = some (0xC0001000, k₁) ∧
    Vm.KHeap.ikmalloc 0xFC000 false k₁ = some (a, k₂) ∧
    Vm.KHeap.ikmalloc pageTableSize true k₂ = some (0, k₃) := by
  have hmost : Vm.KHeap.NoWrap false 0xFC000 := by decide
  have hpt : Vm.KHeap.NoWrap true pageTableSize := by decide
  obtain ⟨k₁, _, h1, hb⟩ := firstHeap_clone
  obtain ⟨k₂, _, h2, hb⟩ := hb.next (p := 0xC000300C) hmost (by decide) (by decide +kernel)
  exact ⟨k₁, _, k₂, _, h1, h2, hb.alloc_full hpt (by decide)⟩

/-- There is no memory for a table, and `alloc_frame` gets `NULL` for a page. -/
theorem stack_not_moved : ¬ ∀ (newStackStart size initialEsp : Nat) (r : Regs) (s : VmState),
    World s → s.currentPd ∈ s.directories → Movable newStackStart size initialEsp r s →
    size / pageSize + 1 ≤ (freeFrames s.frames).ncard →
    StackMoved newStackStart size initialEsp r s := by
  intro hall
  obtain ⟨k₁, a, k₂, k₃, h1, h2, h3⟩ := firstHeap_full
  obtain ⟨first, p, s, hb⟩ := smallBoot h1
  have hi := ikmalloc_heap hb.kheap h2
  have hshares := hb.boots.shares.kmalloc (by decide) hi
  generalize (if a = 0 then s.held else ⟨a - Vm.headerSize, 0xFC000⟩ :: s.held) = held at hi hshares
  have hframes : 0x1000 / pageSize + 1 ≤ (freeFrames s.frames).ncard :=
    (show 0x1000 / pageSize + 1 ≤ 30000 by decide).trans hb.frames_left
  have h := movable_small hb
  have hmovable : Movable 0x40002000 0x1000 0xC0000010 ⟨0, 0xC0000000, 0xC0000008⟩
      { s with kheap := some k₂, held := held } :=
    ⟨h.start, h.pages, h.room, h.limit, h.old, h.depth, h.there, h.apart, h.unmapped⟩
  have hprovided := hmovable.provided hshares.toWorld hb.current hframes
    (hall _ _ _ _ _ hshares.toWorld hb.current hmovable hframes)
  rw [smallPages_eq] at hprovided
  obtain ⟨page, s₁, hg, hpage, -⟩ := hprovided
  have hnone : (s.pageDirectories s.currentPd).tables (pdIndex 0x40002000) = 0 :=
    hb.absent hb.current (by decide) (by decide) (by decide)
  obtain ⟨s₂, hnull⟩ := getPage_starved (s := { s with kheap := some k₂, held := held }) rfl h3 hnone
  exact hpage (Prod.mk.inj (Option.some.inj (hg.symm.trans hnull))).1

end

end Shigure.Process
