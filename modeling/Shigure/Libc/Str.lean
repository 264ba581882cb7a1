import Mathlib.Data.List.TakeWhile

/-!
# Strings

A string is the list of the bytes behind a pointer, and ends at its first NUL
or at the end of the list.
-/

namespace Shigure.Libc

def text (s : String) : List (BitVec 8) := s.toList.map fun c => BitVec.ofNat 8 c.toNat

def cString (str : List (BitVec 8)) : List (BitVec 8) := str.takeWhile (· ≠ 0)

def charAt (str : List (BitVec 8)) (i : Nat) : BitVec 8 := str.getD i 0

def strlen : List (BitVec 8) → Nat
  | [] => 0
  | c :: str => if c = 0 then 0 else strlen str + 1

def strcmp : List (BitVec 8) → List (BitVec 8) → Int
  | [], b => 0 - ((charAt b 0).toNat : Int)
  | c :: a, b =>
    if c ≠ 0 ∧ c = charAt b 0 then strcmp a (b.drop 1)
    else (c.toNat : Int) - ((charAt b 0).toNat : Int)

/-- What the array holds after the string and its NUL have been written to it. -/
def strcpy (dst src : List (BitVec 8)) : List (BitVec 8) :=
  cString src ++ 0 :: dst.drop ((cString src).length + 1)

/-- At most `n` characters of the string, with NULs up to `n`. -/
def strncpy (dst src : List (BitVec 8)) (n : Nat) : List (BitVec 8) :=
  (List.range n).map (fun i => (cString src).getD i 0) ++ dst.drop n

section
variable {a b : List (BitVec 8)} {c : BitVec 8}

theorem cString_cons (hc : c ≠ 0) : cString (c :: a) = c :: cString a := by
  rw [cString, List.takeWhile_cons_of_pos (by simpa using hc)]
  rfl

theorem cString_nil (h : charAt a 0 = 0) : cString a = [] := by
  cases a with
  | nil => rfl
  | cons c a =>
    have hc : c = 0 := h
    rw [cString, List.takeWhile_cons_of_neg (by simpa using hc)]

theorem cString_of_ne (h : charAt a 0 ≠ 0) : cString a = charAt a 0 :: cString (a.drop 1) := by
  cases a with
  | nil => exact absurd rfl h
  | cons c a => exact cString_cons h

theorem strlen_eq (s : List (BitVec 8)) : strlen s = (cString s).length := by
  induction s with
  | nil => rfl
  | cons c s ih =>
    rw [strlen]
    split
    · rename_i hc
      rw [cString_nil (a := c :: s) hc]
      rfl
    · rename_i hc
      rw [cString_cons hc, List.length_cons, ih]

theorem take_strlen (s : List (BitVec 8)) : s.take (strlen s) = cString s := by
  rw [strlen_eq, cString]
  exact (List.prefix_iff_eq_take.mp (List.takeWhile_prefix _)).symm

theorem charAt_drop_strlen (s : List (BitVec 8)) : charAt (s.drop (strlen s)) 0 = 0 := by
  induction s with
  | nil => rfl
  | cons c s ih =>
    rw [strlen]
    split
    · assumption
    · exact ih

theorem toNat_sub_eq_zero {c d : BitVec 8} : (c.toNat : Int) - (d.toNat : Int) = 0 ↔ c = d := by
  rw [Int.sub_eq_zero, Int.natCast_inj, BitVec.toNat_inj]

/-- Strings are compared by what is before their ends. -/
theorem strcmp_eq_zero : strcmp a b = 0 ↔ cString a = cString b := by
  induction a generalizing b with
  | nil =>
    have hzero : strcmp [] b = 0 ↔ (0 : BitVec 8) = charAt b 0 :=
      toNat_sub_eq_zero (c := 0) (d := charAt b 0)
    rw [hzero]
    constructor
    · intro h
      rw [cString_nil h.symm]
      rfl
    · intro h
      by_contra hne
      rw [cString_of_ne fun he => hne he.symm] at h
      cases h
  | cons c a ih =>
    rw [strcmp]
    split
    · rename_i hc
      have hb : charAt b 0 ≠ 0 := hc.2 ▸ hc.1
      rw [ih, cString_cons hc.1, cString_of_ne hb, ← hc.2, List.cons.injEq]
      exact (and_iff_right rfl).symm
    · rename_i hc
      rw [toNat_sub_eq_zero]
      by_cases h0 : c = 0
      · rw [h0, cString_nil (a := 0 :: a) rfl]
        constructor
        · intro h
          rw [cString_nil h.symm]
        · intro h
          by_contra hne
          rw [cString_of_ne fun he => hne he.symm] at h
          cases h
      · refine iff_of_false (fun he => hc ⟨h0, he⟩) fun he => ?_
        rw [cString_cons h0] at he
        by_cases hb : charAt b 0 = 0
        · rw [cString_nil hb] at he
          cases he
        · rw [cString_of_ne hb] at he
          exact hc ⟨h0, (List.cons.inj he).1⟩

theorem cString_of_nul (h : 0 ∉ a) (b : List (BitVec 8)) : cString (a ++ 0 :: b) = a := by
  rw [cString, List.takeWhile_append_of_pos]
  · simp
  · intro c hc
    have hne : c ≠ 0 := by
      rintro rfl
      exact h hc
    simpa using hne

theorem cString_of_noNul (h : 0 ∉ a) : cString a = a := by
  apply List.takeWhile_eq_self_iff.mpr
  intro c hc
  have hne : c ≠ 0 := by
    rintro rfl
    exact h hc
  simpa using hne

theorem zero_notMem_cString (s : List (BitVec 8)) : 0 ∉ cString s := by
  intro h
  have hall := List.all_takeWhile (l := s) (p := (· ≠ 0))
  simpa using List.all_eq_true.mp hall 0 h

theorem cString_strcpy (dst src : List (BitVec 8)) : cString (strcpy dst src) = cString src :=
  cString_of_nul (zero_notMem_cString src) _

end

end Shigure.Libc
