import Mathlib.Data.Nat.Bitwise
import Shigure.Libc.Str

/-!
# `printf`

What is emitted is what goes to `putchar`, which returns its argument, so that
`print` never fails.
-/

namespace Shigure.Libc

-- ---------------------------------------------------------------------------
-- `printint`
-- ---------------------------------------------------------------------------

def digits : List (BitVec 8) := text "0123456789ABCDEF"

/-- `do buf[i++] = digits[num % tgt_base]; while ((num /= tgt_base) != 0)`. -/
def putDigits (tgtBase : Nat) : Nat → Nat → List (BitVec 8) → List (BitVec 8)
  | 0, _, buf => buf
  | fuel + 1, num, buf =>
    let buf := buf ++ [digits.getD (num % tgtBase) 0]
    if num / tgtBase ≠ 0 then putDigits tgtBase fuel (num / tgtBase) buf else buf

def isNegative (number : BitVec 32) (sign : Bool) : Bool := sign && number.toInt < 0

/-- `buf` up to `i`: the digits from the last to the first, then the sign. A word
has at most 32 digits in any base. -/
def printintBuf (number : BitVec 32) (tgtBase : Nat) (sign : Bool) : List (BitVec 8) :=
  let num := if isNegative number sign then -number else number
  let buf := putDigits tgtBase 32 num.toNat []
  if isNegative number sign then buf ++ text "-" else buf

/-- The length and the characters, which go out from the end of the buffer. -/
def printint (number : BitVec 32) (tgtBase : Nat) (sign : Bool) : Nat × List (BitVec 8) :=
  let buf := printintBuf number tgtBase sign
  (buf.length, buf.reverse)

-- ---------------------------------------------------------------------------
-- `printf`
-- ---------------------------------------------------------------------------

inductive Arg where
  | int (i : BitVec 32)
  | str (s : List (BitVec 8))
  deriving DecidableEq, Repr

def intMax : Nat := 2 ^ 31 - 1

def percent : BitVec 8 := 0x25

/-- `while (format[amount] && format[amount] != '%') amount++`. -/
def literalRun : List (BitVec 8) → Nat
  | [] => 0
  | c :: format => if c ≠ 0 ∧ c ≠ percent then literalRun format + 1 else 0

/-- One round of the loop: where it leaves the format and the arguments, what it
emits, the length it adds, and whether that is looked at first. -/
structure Round where
  format : List (BitVec 8)
  args : List Arg
  emits : List (BitVec 8)
  len : Nat
  early : Bool

def vaInt : List Arg → Option (BitVec 32 × List Arg)
  | .int i :: args => some (i, args)
  | _ => none

def vaStr : List Arg → Option (List (BitVec 8) × List Arg)
  | .str s :: args => some (s, args)
  | _ => none

/-- The letter behind a percent sign, with the arguments that are left. `none` is an
argument of another type, or none at all. -/
def convert (begunAt : List (BitVec 8)) (args : List Arg) : Option Round :=
  let format := begunAt.drop 1
  let c := charAt format 0
  if c = 0x64 then do
    let (i, args) ← vaInt args
    some ⟨format.drop 1, args, (printint i 10 true).2, (printint i 10 true).1, false⟩
  else if c = 0x75 then do
    let (i, args) ← vaInt args
    some ⟨format.drop 1, args, (printint i 10 false).2, (printint i 10 false).1, false⟩
  else if c = 0x78 then do
    let (i, args) ← vaInt args
    some ⟨format.drop 1, args, text "0x" ++ (printint i 16 false).2, 2 + (printint i 16 false).1, false⟩
  else if c = 0x63 then do
    let (i, args) ← vaInt args
    some ⟨format.drop 1, args, [i.setWidth 8], 1, true⟩
  else if c = 0x73 then do
    let (str, args) ← vaStr args
    some ⟨format.drop 1, args, str.take (strlen str), strlen str, true⟩
  else
    -- rewinds, and the rest is printed as it stands
    let len := strlen begunAt
    some ⟨begunAt.drop len, args, begunAt.take len, len, true⟩

def round (format : List (BitVec 8)) (args : List Arg) : Option Round :=
  if charAt format 0 ≠ percent ∨ charAt format 1 = percent then
    let format := if charAt format 0 = percent then format.drop 1 else format
    let amount := 1 + literalRun (format.drop 1)
    some ⟨format.drop amount, args, format.take amount, amount, true⟩
  else convert format args

def printfLoop : Nat → List (BitVec 8) → List Arg → Nat → List (BitVec 8) →
    Option (Int × List (BitVec 8))
  | 0, _, _, _, _ => none
  | fuel + 1, format, args, written, out =>
    if charAt format 0 = 0 then some (written, out)
    else do
      let maxrem := intMax - written
      let r ← round format args
      if maxrem < r.len then some (-1, if r.early then out else out ++ r.emits)
      else printfLoop fuel r.format r.args (written + r.len) (out ++ r.emits)

def printf (format : List (BitVec 8)) (args : List Arg) : Option (Int × List (BitVec 8)) :=
  printfLoop (format.length + 1) format args 0 []

def printed (format : String) (args : List Arg) : List (BitVec 8) :=
  ((printf (text format) args).map Prod.snd).getD []

end Shigure.Libc
