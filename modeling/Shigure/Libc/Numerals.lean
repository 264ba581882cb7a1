import Shigure.Libc.PrintfLaws

/-!
# Numbers read back

What `printint` emits is the numeral of the number: reading its digits gives the
number again, and the widest one leaves room in the buffer.
-/

namespace Shigure.Libc

def readDigits (base : Nat) (ds : List (BitVec 8)) : Nat :=
  ds.foldl (fun n c => n * base + digits.idxOf c) 0

/-- One or more digits; a zero in front stands alone. -/
structure IsNumeral (base : Nat) (ds : List (BitVec 8)) : Prop where
  nonempty : ds ≠ []
  digit : ∀ c ∈ ds, ∃ d < base, c = digits.getD d 0
  leading : ds.head? = some (digits.getD 0 0) → ds.length = 1

def printintBufSize : Nat := 16

def shownValue (number : BitVec 32) (sign : Bool) : Int :=
  if sign then number.toInt else number.toNat

/-- A minus sign for a negative number, then a numeral that reads back to its absolute
value; the length is that of the text, and the buffer is long enough for it. -/
structure PrintsExactly (number : BitVec 32) (base : Nat) (sign : Bool) : Prop where
  shown : ∃ ds, (printint number base sign).2 =
      (if shownValue number sign < 0 then text "-" else []) ++ ds ∧ IsNumeral base ds ∧
    shownValue number sign =
      if shownValue number sign < 0 then -(readDigits base ds : Int) else readDigits base ds
  length : (printint number base sign).1 = (printint number base sign).2.length
  room : (printintBuf number base sign).length ≤ printintBufSize

section
variable {base n k : Nat}

-- ---------------------------------------------------------------------------
-- Numerals
-- ---------------------------------------------------------------------------

theorem idxOf_digits {d : Nat} (h : d < 16) : digits.idxOf (digits.getD d 0) = d := by
  revert d
  decide +kernel

theorem readDigits_append (ds : List (BitVec 8)) (c : BitVec 8) :
    readDigits base (ds ++ [c]) = readDigits base ds * base + digits.idxOf c := by
  rw [readDigits, List.foldl_append]
  rfl

/-- The digits of `n` are those of `n / base` with one more. -/
theorem numeral_induction {motive : Nat → List (BitVec 8) → Prop} (hb : 1 < base) (h16 : base ≤ 16)
    (one : ∀ d < base, motive d [digits.getD d 0])
    (more : ∀ n, base ≤ n → motive (n / base) (numeral base (n / base)) →
      motive n (numeral base (n / base) ++ [digits.getD (n % base) 0])) (n : Nat) :
    motive n (numeral base n) := by
  induction n using Nat.strongRecOn with
  | ind n ih =>
    by_cases h : n < base
    · rw [numeral_lt hb h16 h, Nat.mod_eq_of_lt h]
      exact one n h
    · rw [numeral_ge hb h16 (Nat.not_lt.mp h)]
      exact more n (Nat.not_lt.mp h) (ih (n / base) (Nat.div_lt_self (by omega) hb))

theorem readDigits_numeral (hb : 1 < base) (h16 : base ≤ 16) (n : Nat) :
    readDigits base (numeral base n) = n := by
  refine numeral_induction (motive := fun n ds => readDigits base ds = n) hb h16 ?_ ?_ n
  · intro d hd
    rw [readDigits, List.foldl_cons, List.foldl_nil, Nat.zero_mul, Nat.zero_add,
      idxOf_digits (hd.trans_le h16)]
  · intro n _ ih
    rw [readDigits_append, ih, idxOf_digits ((Nat.mod_lt n (by omega)).trans_le h16), Nat.mul_comm,
      Nat.div_add_mod]

theorem numeral_ne_nil (hb : 1 < base) (h16 : base ≤ 16) (n : Nat) : numeral base n ≠ [] :=
  numeral_induction (motive := fun _ ds => ds ≠ []) hb h16 (fun _ _ => List.cons_ne_nil _ _)
    (fun _ _ _ => List.append_ne_nil_of_right_ne_nil _ (List.cons_ne_nil _ _)) n

theorem numeral_digit (hb : 1 < base) (h16 : base ≤ 16) (n : Nat) :
    ∀ c ∈ numeral base n, ∃ d < base, c = digits.getD d 0 := by
  refine numeral_induction (motive := fun _ ds => ∀ c ∈ ds, ∃ d < base, c = digits.getD d 0) hb h16
    ?_ ?_ n
  · intro d hd c hc
    exact ⟨d, hd, List.mem_singleton.mp hc⟩
  · intro n _ ih c hc
    rcases List.mem_append.mp hc with hc | hc
    · exact ih c hc
    · exact ⟨n % base, Nat.mod_lt n (by omega), List.mem_singleton.mp hc⟩

theorem numeral_head (hb : 1 < base) (h16 : base ≤ 16) (n : Nat) :
    (numeral base n).head? = some (digits.getD 0 0) → n = 0 := by
  refine numeral_induction (motive := fun n ds => ds.head? = some (digits.getD 0 0) → n = 0) hb h16
    ?_ ?_ n
  · intro d hd he
    have hidx := congrArg digits.idxOf (Option.some.inj he)
    rwa [idxOf_digits (hd.trans_le h16), idxOf_digits (by decide)] at hidx
  · intro n hn ih he
    obtain ⟨c, ds, hds⟩ := List.exists_cons_of_ne_nil (numeral_ne_nil hb h16 (n / base))
    rw [hds] at ih he
    have hzero := ih he
    have := Nat.div_pos hn (by omega)
    omega

theorem numeral_isNumeral (hb : 1 < base) (h16 : base ≤ 16) (n : Nat) :
    IsNumeral base (numeral base n) where
  nonempty := numeral_ne_nil hb h16 n
  digit := numeral_digit hb h16 n
  leading := by
    intro he
    rw [numeral_head hb h16 n he, numeral_lt hb h16 (by omega)]
    rfl

theorem numeral_length (hb : 1 < base) (h16 : base ≤ 16) (h : n < base ^ (k + 1)) :
    (numeral base n).length ≤ k + 1 := by
  induction k generalizing n with
  | zero =>
    rw [Nat.pow_one] at h
    rw [numeral_lt hb h16 h]
    rfl
  | succ k ih =>
    rcases Nat.lt_or_ge n base with hlt | hge
    · rw [numeral_lt hb h16 hlt, List.length_singleton]
      omega
    · have hdiv : n / base < base ^ (k + 1) := by
        rw [Nat.div_lt_iff_lt_mul (by omega), ← Nat.pow_succ]
        exact h
      rw [numeral_ge hb h16 hge, List.length_append]
      exact Nat.add_le_add_right (ih hdiv) 1

/-- In base 10 or more a word takes at most ten digits. -/
theorem numeral_word (hb : 10 ≤ base) (h16 : base ≤ 16) (w : BitVec 32) :
    (numeral base w.toNat).length ≤ 10 := by
  refine numeral_length (by omega) h16 ?_
  calc w.toNat < 2 ^ 32 := w.isLt
    _ ≤ 10 ^ 10 := by decide
    _ ≤ base ^ 10 := Nat.pow_le_pow_left hb 10

-- ---------------------------------------------------------------------------
-- `printint`
-- ---------------------------------------------------------------------------

def magnitude (number : BitVec 32) (sign : Bool) : BitVec 32 :=
  if isNegative number sign then -number else number

theorem isNegative_iff (number : BitVec 32) (sign : Bool) :
    isNegative number sign = true ↔ shownValue number sign < 0 := by
  cases sign with
  | false =>
    refine iff_of_false (by simp [isNegative]) ?_
    simp only [shownValue, Bool.false_eq_true, if_false]
    omega
  | true => simp [isNegative, shownValue]

theorem magnitude_natAbs (number : BitVec 32) (sign : Bool) :
    (magnitude number sign).toNat = (shownValue number sign).natAbs := by
  cases sign with
  | false => rfl
  | true =>
    by_cases h : number.toInt < 0
    · have hneg : isNegative number true = true := decide_eq_true h
      rw [magnitude, if_pos hneg, toNat_neg_of_negative h]
      rfl
    · have hpos : isNegative number true = false := decide_eq_false h
      rw [magnitude, hpos]
      show number.toNat = number.toInt.natAbs
      have hi := number.isLt
      rw [BitVec.toInt_eq_toNat_cond] at *
      split at h <;> omega

theorem printintBuf_eq (hb : 1 < base) (h16 : base ≤ 16) (number : BitVec 32) (sign : Bool) :
    printintBuf number base sign = (numeral base (magnitude number sign).toNat).reverse ++
      if shownValue number sign < 0 then text "-" else [] := by
  rw [printintBuf, ← magnitude, putDigits_word hb h16]
  by_cases h : isNegative number sign = true
  · rw [if_pos h, if_pos ((isNegative_iff number sign).mp h)]
  · rw [if_neg h, if_neg (mt (isNegative_iff number sign).mpr h), List.append_nil]

end

/-- `printint` in either base, with or without a sign. -/
theorem printint_exact (number : BitVec 32) (base : Nat) (hbase : base = 10 ∨ base = 16)
    (sign : Bool) : PrintsExactly number base sign := by
  have hb : 10 ≤ base := by omega
  have h16 : base ≤ 16 := by omega
  have hbuf := printintBuf_eq (show 1 < base by omega) h16 number sign
  refine ⟨⟨numeral base (magnitude number sign).toNat, ?_, numeral_isNumeral (by omega) h16 _, ?_⟩,
    ?_, ?_⟩
  · rw [printint, hbuf, List.reverse_append, List.reverse_reverse]
    split <;> rfl
  · rw [readDigits_numeral (by omega) h16, magnitude_natAbs]
    split <;> omega
  · rw [printint, List.length_reverse]
  · have hdigits := numeral_word hb h16 (magnitude number sign)
    have hminus : (text "-").length = 1 := rfl
    rw [hbuf, List.length_append, List.length_reverse, printintBufSize]
    split
    · omega
    · rw [List.length_nil]
      omega

/-- The most negative number. -/
theorem printint_exact_least : PrintsExactly 0x80000000 10 true ∧
    printint 0x80000000 10 true = (11, text "-2147483648") :=
  ⟨printint_exact 0x80000000 10 (.inl rfl) true, by decide +kernel⟩

end Shigure.Libc
