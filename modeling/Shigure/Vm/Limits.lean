import Shigure.Vm.HeapLaws

/-!
# The end of a heap that grows

`expand_heap` computes the new end and the limit with 32 bits. Here they are the
sums that they stand for, modulo `2 ^ 32`.
-/

namespace Shigure.Vm

def roundUp (n : Nat) : Nat := (n + (pageSize - 1)) / pageSize * pageSize

section
variable {n a newEndAddr size fuel : Nat} {heap : Heap} {s : HeapState} {r : PageRequest}

theorem le_roundUp (n : Nat) : n ≤ roundUp n := by
  simp only [roundUp, pageSize]
  omega

theorem roundUp_lt (n : Nat) : roundUp n < n + pageSize := by
  simp only [roundUp, pageSize]
  omega

theorem dvd_roundUp (n : Nat) : pageSize ∣ roundUp n := Nat.dvd_mul_left _ _

theorem roundUp_le (ha : pageSize ∣ a) (h : n ≤ a) : roundUp n ≤ a := by
  obtain ⟨k, rfl⟩ := ha
  simp only [roundUp, pageSize] at *
  omega

theorem roundUp_of_dvd (ha : pageSize ∣ a) : roundUp a = a :=
  le_antisymm (roundUp_le ha le_rfl) (le_roundUp a)

theorem align_mod (n : Nat) : align (n % wordSize) pageSize = roundUp n % wordSize := by
  have hlt : add32 (n % wordSize) (pageSize - 1) < 2 ^ 32 := Nat.mod_lt _ (by decide)
  show add32 (n % wordSize) (pageSize - 1) &&& (2 ^ 32 - 2 ^ 12) = _
  rw [and_sub_two_pow hlt (by decide)]
  simp only [add32, roundUp, pageSize, wordSize]
  omega

theorem align_add32 (a size : Nat) :
    align (add32 a size) pageSize = roundUp (a + size) % wordSize := align_mod (a + size)

-- ---------------------------------------------------------------------------
-- The pages on the way
-- ---------------------------------------------------------------------------

theorem mapPages_nil (h : newEndAddr ≤ a) : mapPages heap newEndAddr fuel a = [] := by
  cases fuel with
  | zero => rfl
  | succ fuel => rw [mapPages, if_neg (Nat.not_lt.mpr h)]

theorem mapPages_eq (hnew : newEndAddr < wordSize) (hle : a ≤ newEndAddr)
    (hfuel : newEndAddr < a + fuel * pageSize + pageSize) (ha : pageSize ∣ a)
    (hn : pageSize ∣ newEndAddr) : mapPages heap newEndAddr fuel a =
      (List.range ((newEndAddr - a) / pageSize)).map fun k =>
        ⟨a + k * pageSize, heap.supervisor, !heap.readonly⟩ := by
  induction fuel generalizing a with
  | zero =>
    have hzero : (newEndAddr - a) / pageSize = 0 := by
      rw [Nat.zero_mul] at hfuel
      exact Nat.div_eq_of_lt (by omega)
    rw [hzero]
    rfl
  | succ fuel ih =>
    rcases Nat.lt_or_ge a newEndAddr with hlt | hge
    · have hnext : a + pageSize ≤ newEndAddr := by
        simp only [pageSize] at *
        omega
      have hcount : (newEndAddr - a) / pageSize = (newEndAddr - (a + pageSize)) / pageSize + 1 := by
        simp only [pageSize] at *
        omega
      rw [mapPages, if_pos hlt, add32_eq (hnext.trans_lt hnew),
        ih hnext (by rw [Nat.succ_mul] at hfuel; omega) ((Nat.dvd_add_right ha).mpr dvd_rfl), hcount,
        List.range_succ_eq_map, List.map_cons, List.map_map, Nat.zero_mul, Nat.add_zero]
      congr 1
      refine List.map_congr_left fun k _ => ?_
      rw [Function.comp_apply, Nat.succ_mul, Nat.add_assoc, Nat.add_comm pageSize]
    · obtain rfl := le_antisymm hle hge
      rw [mapPages_nil le_rfl, Nat.sub_self, Nat.zero_div]
      rfl

theorem mem_mapPages (hnew : newEndAddr < wordSize) (ha : pageSize ∣ a)
    (hn : pageSize ∣ newEndAddr) : r ∈ mapPages heap newEndAddr (wordSize / pageSize) a ↔
      r = ⟨r.vaddr, heap.supervisor, !heap.readonly⟩ ∧ a ≤ r.vaddr ∧ r.vaddr < newEndAddr ∧
        pageSize ∣ r.vaddr := by
  rcases Nat.lt_or_ge newEndAddr a with hlt | hle
  · rw [mapPages_nil hlt.le]
    exact iff_of_false List.not_mem_nil fun h => by omega
  · rw [mapPages_eq hnew hle (by simp only [wordSize, pageSize] at *; omega) ha hn, List.mem_map]
    constructor
    · rintro ⟨k, hk, rfl⟩
      rw [List.mem_range] at hk
      refine ⟨rfl, Nat.le_add_right _ _, ?_, (Nat.dvd_add_right ha).mpr (Nat.dvd_mul_left _ _)⟩
      simp only [pageSize] at *
      omega
    · rintro ⟨hr, hle, hlt, hd⟩
      refine ⟨(r.vaddr - a) / pageSize, List.mem_range.mpr ?_, ?_⟩
      · simp only [pageSize] at *
        omega
      · rw [hr]
        congr 1
        simp only [pageSize] at *
        omega

-- ---------------------------------------------------------------------------
-- The limit
-- ---------------------------------------------------------------------------

/-- The new end passes the limit, both as the code computes them. -/
def PastLimit (size : Nat) (heap : Heap) : Prop :=
  add32 heap.startAddr heap.maxSize < roundUp (heap.endAddr + size) % wordSize

instance : Decidable (PastLimit size heap) := inferInstanceAs (Decidable (_ < _))

theorem expandHeap_refused (h : PastLimit size s.heap) : expandHeap size s = (0, s) := by
  simp only [expandHeap, align_add32]
  exact if_pos h

theorem expandHeap_accepted (h : ¬ PastLimit size s.heap) : expandHeap size s =
    (sub32 (roundUp (s.heap.endAddr + size) % wordSize) s.heap.startAddr,
      { s with
        heap := { s.heap with endAddr := roundUp (s.heap.endAddr + size) % wordSize }
        pages := s.pages ++ mapPages s.heap (roundUp (s.heap.endAddr + size) % wordSize)
          (wordSize / pageSize) s.heap.endAddr }) := by
  simp only [expandHeap, align_add32]
  exact if_neg h

end

end Shigure.Vm
