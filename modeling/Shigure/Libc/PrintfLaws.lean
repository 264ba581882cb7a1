import Mathlib.Order.Lattice
import Shigure.Libc.Printf

/-!
# What `printf` emits

`render` reads a format one character at a time and says what comes out for it.
The loop of `printf` goes on in runs of literal text instead, with a second
percent sign as the first character of a run.
-/

namespace Shigure.Libc

-- ---------------------------------------------------------------------------
-- Numerals
-- ---------------------------------------------------------------------------

def numeral (base n : Nat) : List (BitVec 8) :=
  (Nat.toDigits base n).map fun c => BitVec.ofNat 8 c.toUpper.toNat

def signedDecimal (i : Int) : List (BitVec 8) :=
  (if i < 0 then text "-" else []) ++ numeral 10 i.natAbs

theorem digits_getD (h : d < 16) :
    digits.getD d 0 = BitVec.ofNat 8 (Nat.digitChar d).toUpper.toNat := by
  revert d
  decide +kernel

section
variable {base n : Nat} {buf : List (BitVec 8)}

theorem numeral_lt (hb : 1 < base) (h16 : base ≤ 16) (h : n < base) :
    numeral base n = [digits.getD (n % base) 0] := by
  rw [numeral, Nat.toDigits_eq_if hb, if_pos h, Nat.mod_eq_of_lt h, digits_getD (by omega)]
  rfl

theorem numeral_ge (hb : 1 < base) (h16 : base ≤ 16) (h : base ≤ n) :
    numeral base n = numeral base (n / base) ++ [digits.getD (n % base) 0] := by
  have hd : n % base < base := Nat.mod_lt n (by omega)
  rw [numeral, Nat.toDigits_eq_if hb, if_neg (by omega), List.map_append, digits_getD (by omega)]
  rfl

theorem putDigits_eq (fuel : Nat) (hb : 1 < base) (h16 : base ≤ 16) (h : n < base ^ (fuel + 1)) :
    putDigits base (fuel + 1) n buf = buf ++ (numeral base n).reverse := by
  induction fuel generalizing n buf with
  | zero =>
    rw [Nat.pow_one] at h
    simp only [putDigits, Nat.div_eq_of_lt h, numeral_lt hb h16 h, ne_eq, not_true, if_false,
      List.reverse_singleton]
  | succ fuel ih =>
    rw [putDigits]
    split
    · rename_i hne
      have hge : base ≤ n := by
        by_contra hlt
        exact hne (Nat.div_eq_of_lt (by omega))
      have hdiv : n / base < base ^ (fuel + 1) := by
        rw [Nat.div_lt_iff_lt_mul (by omega), ← Nat.pow_succ]
        exact h
      rw [ih hdiv, numeral_ge hb h16 hge, List.reverse_append, List.append_assoc]
      rfl
    · rename_i heq
      have hlt : n < base := by
        by_contra hge
        have := Nat.div_pos (Nat.not_lt.mp hge) (by omega)
        omega
      rw [numeral_lt hb h16 hlt, List.reverse_singleton]

theorem putDigits_word (hb : 1 < base) (h16 : base ≤ 16) (w : BitVec 32) :
    putDigits base 32 w.toNat [] = (numeral base w.toNat).reverse := by
  refine putDigits_eq 31 hb h16 ?_
  calc w.toNat < 2 ^ 32 := w.isLt
    _ ≤ base ^ 32 := Nat.pow_le_pow_left hb 32

end

theorem printint_unsigned (hb : 1 < base) (h16 : base ≤ 16) (i : BitVec 32) :
    printint i base false = ((numeral base i.toNat).length, numeral base i.toNat) := by
  have hbuf : printintBuf i base false = (numeral base i.toNat).reverse :=
    putDigits_word hb h16 i
  rw [printint, hbuf, List.length_reverse, List.reverse_reverse]

/-- The absolute value of a negative number, the most negative one included. -/
theorem toNat_neg_of_negative {i : BitVec 32} (h : i.toInt < 0) : (-i).toNat = i.toInt.natAbs := by
  have hi := i.isLt
  rw [BitVec.toInt_eq_toNat_cond] at *
  rw [BitVec.toNat_neg]
  split at h <;> omega

theorem printint_signed (i : BitVec 32) :
    printint i 10 true = ((signedDecimal i.toInt).length, signedDecimal i.toInt) := by
  have hbuf : printintBuf i 10 true = (signedDecimal i.toInt).reverse := by
    simp only [printintBuf, isNegative, Bool.true_and, decide_eq_true_eq, signedDecimal]
    split
    · rename_i hneg
      rw [putDigits_word (by decide) (by decide), toNat_neg_of_negative hneg, List.reverse_append]
      rfl
    · rename_i hpos
      have habs : i.toInt.natAbs = i.toNat := by
        have hi := i.isLt
        rw [BitVec.toInt_eq_toNat_cond] at *
        split at hpos <;> omega
      rw [putDigits_word (by decide) (by decide), List.nil_append, habs]
  rw [printint, hbuf, List.length_reverse, List.reverse_reverse]

-- ---------------------------------------------------------------------------
-- Formats
-- ---------------------------------------------------------------------------

inductive Conversion where
  | signed
  | unsigned
  | hexadecimal
  | character
  | string

def conversion (c : BitVec 8) : Option Conversion :=
  if c = 0x64 then some .signed
  else if c = 0x75 then some .unsigned
  else if c = 0x78 then some .hexadecimal
  else if c = 0x63 then some .character
  else if c = 0x73 then some .string
  else none

def Conversion.render : Conversion → Arg → Option (List (BitVec 8))
  | .signed, .int i => some (signedDecimal i.toInt)
  | .unsigned, .int i => some (numeral 10 i.toNat)
  | .hexadecimal, .int i => some (text "0x" ++ numeral 16 i.toNat)
  | .character, .int i => some [i.setWidth 8]
  | .string, .str s => some (cString s)
  | _, _ => none

/-- What a format says. `none` is an argument that is missing or of another type. -/
def render : List (BitVec 8) → List Arg → Option (List (BitVec 8))
  | [], _ => some []
  | c :: format, args =>
    if c = 0 then some []
    else if c ≠ percent then (c :: ·) <$> render format args
    else
      match format with
      | [] => some [percent]
      | d :: rest =>
        if d = percent then (percent :: ·) <$> render rest args
        else
          match conversion d, args with
          | some v, arg :: args => do
            let shown ← v.render arg
            let rest ← render rest args
            some (shown ++ rest)
          | some _, [] => none
          | none, _ => some (cString (percent :: d :: rest))

section
variable {format : List (BitVec 8)} {args : List Arg} {out : List (BitVec 8)} {r : Round}

theorem render_char {c : BitVec 8} (h0 : c ≠ 0) (hc : c ≠ percent) :
    render (c :: format) args = (c :: ·) <$> render format args := by
  rw [render.eq_def]
  simp only [h0, hc, if_false, ne_eq, not_false_eq_true, if_true]

theorem render_percent :
    render (percent :: percent :: format) args = (percent :: ·) <$> render format args := by
  rw [render.eq_def]
  rfl

theorem render_end (h : charAt format 0 = 0) : render format args = some [] := by
  cases format with
  | nil => rfl
  | cons c format =>
    rw [render.eq_def]
    exact if_pos h

theorem render_verbatim {d : BitVec 8} (hd : d ≠ percent) (hv : conversion d = none) :
    render (percent :: d :: format) args = some (cString (percent :: d :: format)) := by
  rw [render.eq_def]
  simp only [hd, hv, if_false, if_neg (show ¬ percent = 0 by decide), ne_eq, not_true]

theorem render_conversion {d : BitVec 8} {v : Conversion} (hd : d ≠ percent)
    (hv : conversion d = some v) (h : render (percent :: d :: format) args = some out) :
    ∃ arg args' shown rest, args = arg :: args' ∧ v.render arg = some shown ∧
      render format args' = some rest ∧ out = shown ++ rest := by
  rw [render.eq_def] at h
  simp only [hd, hv, if_false, if_neg (show ¬ percent = 0 by decide), ne_eq, not_true] at h
  cases args with
  | nil => cases h
  | cons arg args' =>
    simp only [bind, Option.bind_eq_some_iff, Option.some.injEq] at h
    obtain ⟨shown, hshown, rest, hrest, rfl⟩ := h
    exact ⟨arg, args', shown, rest, rfl, hshown, hrest, rfl⟩

theorem render_literal (format : List (BitVec 8)) (args : List Arg) :
    render format args = (format.take (literalRun format) ++ ·) <$>
      render (format.drop (literalRun format)) args := by
  induction format with
  | nil => rfl
  | cons c format ih =>
    rw [literalRun]
    split
    · rename_i hc
      rw [render_char hc.1 hc.2, ih]
      simp only [List.take_succ_cons, List.drop_succ_cons, List.cons_append, Functor.map_map]
    · cases h : render (c :: format) args with
      | none => simp [h]
      | some out => simp [h]

-- ---------------------------------------------------------------------------
-- Rounds
-- ---------------------------------------------------------------------------

structure Renders (format : List (BitVec 8)) (out : List (BitVec 8)) (r : Round) : Prop where
  len : r.len = r.emits.length
  rest : ∃ rest, render r.format r.args = some rest ∧ out = r.emits ++ rest
  shorter : r.format.length < format.length

theorem convert_verbatim (begunAt : List (BitVec 8)) (args : List Arg) (h0 : charAt begunAt 0 ≠ 0)
    (hv : conversion (charAt (begunAt.drop 1) 0) = none) :
    ∃ r, convert begunAt args = some r ∧ Renders begunAt (cString begunAt) r := by
  simp only [conversion] at hv
  split_ifs at hv
  rename_i h1 h2 h3 h4 h5
  simp only [convert, h1, h2, h3, h4, h5, if_false]
  refine ⟨_, rfl, ?_, ⟨[], render_end (charAt_drop_strlen begunAt), ?_⟩, ?_⟩
  · rw [take_strlen, strlen_eq]
  · rw [take_strlen, List.append_nil]
  · cases begunAt with
    | nil => exact absurd rfl h0
    | cons c rest =>
      have hc : ¬ c = 0 := h0
      simp only [strlen, hc, if_false, List.drop_succ_cons, List.length_drop, List.length_cons]
      omega

theorem convert_render {d : BitVec 8} {v : Conversion} (hd : d ≠ percent)
    (hv : conversion d = some v) (h : render (percent :: d :: format) args = some out) :
    ∃ r, convert (percent :: d :: format) args = some r ∧
      Renders (percent :: d :: format) out r := by
  have hlen : format.length < (percent :: d :: format).length :=
    (Nat.lt_succ_self _).trans (Nat.lt_succ_self _)
  have hchar : charAt ((percent :: d :: format).drop 1) 0 = d := rfl
  have hdrop : ((percent :: d :: format).drop 1).drop 1 = format := rfl
  obtain ⟨arg, args, shown, rest, rfl, hshown, hrest, rfl⟩ := render_conversion hd hv h
  simp only [convert, hchar, hdrop]
  -- the letters are tried in the same order on both sides
  simp only [conversion] at hv
  split_ifs at hv with h1 h2 h3 h4 h5 <;> cases hv <;> cases arg <;> cases hshown
  · rw [if_pos h1]
    refine ⟨_, rfl, ?_, ⟨rest, hrest, ?_⟩, hlen⟩ <;> rw [printint_signed]
  · rw [if_neg h1, if_pos h2]
    refine ⟨_, rfl, ?_, ⟨rest, hrest, ?_⟩, hlen⟩ <;>
      rw [printint_unsigned (by decide) (by decide)]
  · rw [if_neg h1, if_neg h2, if_pos h3]
    refine ⟨_, rfl, ?_, ⟨rest, hrest, ?_⟩, hlen⟩ <;>
      rw [printint_unsigned (by decide) (by decide)]
    rw [List.length_append]
    rfl
  · rw [if_neg h1, if_neg h2, if_neg h3, if_pos h4]
    exact ⟨_, rfl, rfl, ⟨rest, hrest, rfl⟩, hlen⟩
  · rw [if_neg h1, if_neg h2, if_neg h3, if_neg h4, if_pos h5]
    refine ⟨_, rfl, ?_, ⟨rest, hrest, ?_⟩, hlen⟩
    · rw [take_strlen, strlen_eq]
    · rw [take_strlen]

theorem literalRun_le (format : List (BitVec 8)) : literalRun format ≤ format.length := by
  induction format with
  | nil => exact Nat.le_refl 0
  | cons c format ih =>
    rw [literalRun, List.length_cons]
    split <;> omega

theorem round_literal {c : BitVec 8}
    (hc : ∃ rest, render format args = some rest ∧ out = c :: rest) :
    Renders (c :: format) out ⟨(c :: format).drop (1 + literalRun format), args,
      (c :: format).take (1 + literalRun format), 1 + literalRun format, true⟩ := by
  have hle := literalRun_le format
  obtain ⟨rest, hrest, rfl⟩ := hc
  rw [render_literal, Option.map_eq_map, Option.map_eq_some_iff] at hrest
  obtain ⟨rest', hrest', rfl⟩ := hrest
  rw [Nat.add_comm]
  refine ⟨?_, ⟨rest', hrest', rfl⟩, ?_⟩
  · rw [List.take_succ_cons, List.length_cons, List.length_take, min_eq_left hle]
  · rw [List.drop_succ_cons, List.length_drop, List.length_cons]
    omega

theorem round_render (h0 : charAt format 0 ≠ 0) (h : render format args = some out) :
    ∃ r, round format args = some r ∧ Renders format out r := by
  cases format with
  | nil => exact absurd rfl h0
  | cons c format =>
    have h0 : c ≠ 0 := h0
    have hc : charAt (c :: format) 0 = c := rfl
    simp only [round, hc]
    by_cases hp : c = percent
    · subst hp
      cases format with
      | nil =>
        cases h
        exact convert_verbatim [percent] args h0 rfl
      | cons d format =>
        have hd : charAt (percent :: d :: format) 1 = d := rfl
        by_cases hd' : d = percent
        · subst hd'
          rw [render_percent, Option.map_eq_map, Option.map_eq_some_iff] at h
          obtain ⟨rest, hrest, rfl⟩ := h
          obtain ⟨hlen, hout, hshort⟩ := round_literal ⟨rest, hrest, rfl⟩
          rw [if_pos (.inr hd), if_pos rfl]
          exact ⟨_, rfl, hlen, hout, hshort.trans (Nat.lt_succ_self _)⟩
        · rw [hd, if_neg (by simp [hd'])]
          cases hv : conversion d with
          | none =>
            rw [render_verbatim hd' hv] at h
            obtain rfl := Option.some.inj h
            exact convert_verbatim _ args h0 hv
          | some v => exact convert_render hd' hv h
    · rw [render_char h0 hp, Option.map_eq_map, Option.map_eq_some_iff] at h
      obtain ⟨rest, hrest, rfl⟩ := h
      rw [if_pos (.inl hp), if_neg hp]
      exact ⟨_, rfl, round_literal ⟨rest, hrest, rfl⟩⟩

theorem printfLoop_render {fuel : Nat} (written : Nat) (before : List (BitVec 8))
    (hfuel : format.length < fuel) (h : render format args = some out)
    (hmax : written + out.length ≤ intMax) :
    printfLoop fuel format args written before =
      some (((written + out.length : Nat) : Int), before ++ out) := by
  induction fuel generalizing format args out written before with
  | zero => omega
  | succ fuel ih =>
    rw [printfLoop]
    split
    · rename_i hend
      rw [render_end hend] at h
      obtain rfl := Option.some.inj h
      rw [List.append_nil]
      rfl
    · rename_i h0
      obtain ⟨r, hr, hlen, ⟨rest, hrest, rfl⟩, hshort⟩ := round_render h0 h
      rw [List.length_append] at hmax ⊢
      simp only [hr, Option.bind_eq_bind, Option.bind_some]
      rw [if_neg (by omega), ih _ _ (by omega) hrest (by omega), hlen, List.append_assoc,
        Nat.add_assoc]

/-- `printf` emits what the format says and returns how much that is. -/
theorem printf_emits (format : List (BitVec 8)) (args : List Arg) (out : List (BitVec 8))
    (h : render format args = some out) (hmax : out.length < intMax) :
    printf format args = some ((out.length : Int), out) := by
  have hloop := printfLoop_render 0 [] (Nat.lt_succ_self format.length) h
    (by omega)
  rw [Nat.zero_add] at hloop
  exact hloop

/-- A pair of percent signs, a number, and a conversion that there is not. -/
theorem printf_emits_signs : printf (text "%%%d%q%%") [.int (-7)] = some (7, text "%-7%q%%") :=
  printf_emits (text "%%%d%q%%") [.int (-7)] (text "%-7%q%%") (by decide +kernel) (by decide +kernel)

end

end Shigure.Libc
