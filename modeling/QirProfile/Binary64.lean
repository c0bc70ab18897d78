import QirProfile.Span
import QirProfile.Text.Bytes

/-!
# Doubles as bits, read and written exactly

A floating point constant is the 64 bits of a double. Reading a decimal rounds the exact number it
writes to the nearest double, an even one on a tie (`ofDecimal`). Three texts are written:

* `scientific`, seven significant digits and an exponent, for program text;
* `positional`, the fewest digits that read back, without exponent, for messages about programs;
* `general`, the fewest digits that read back, with an exponent where the point would stand far
  from them, for documents and messages about them.

All of it is arithmetic on natural numbers.
-/

namespace QirProfile.Binary64

/-! ## 1. Rounding -/

/-- The whole number nearest to a quotient, the even one on a tie. -/
def roundDiv (num den : Nat) : Nat :=
  let q := num / den
  let r := num % den
  if 2 * r > den ∨ (2 * r = den ∧ q % 2 = 1) then q + 1 else q

/-- The bits of positive infinity. -/
def infinity : Nat := 0x7FF0000000000000

/-- A quotient scaled by a power of two, as numerator and denominator. -/
def scaleTwo (num den : Nat) (e : Int) : Nat × Nat :=
  if 0 ≤ e then (num * span e.toNat, den) else (num, den * span (-e).toNat)

/-- A quotient scaled by a power of ten, as numerator and denominator. -/
def scaleTen (num den : Nat) (e : Int) : Nat × Nat :=
  if 0 ≤ e then (num * decimals e.toNat, den) else (num, den * decimals (-e).toNat)

/-- The greatest `e` with `2 ^ e ≤ num / den`, for positive numbers. -/
def binaryExponent (num den : Nat) : Int :=
  let e : Int := (num.log2 : Int) - (den.log2 : Int)
  let (n, d) := scaleTwo num den (-e)
  if d ≤ n then e else e - 1

/-- The bits of the double nearest to a positive quotient. The exponent is chosen so that 53 bits
    are left, or fewer next to zero; a carry out of them moves into the exponent by itself. -/
def ofRatio (num den : Nat) : Nat :=
  if num = 0 then 0
  else
    let e := max (binaryExponent num den - 52) (-1074)
    let (n, d) := scaleTwo num den (-e)
    min ((e + 1074).toNat * span 52 + roundDiv n d) infinity

/-- The bits with the sign put in. -/
def withSign (negative : Bool) (bits : Nat) : UInt64 :=
  UInt64.ofNat (if negative then bits + span 63 else bits)

/-- The double nearest to `digits · 10 ^ exponent`. Far beyond the greatest double and far below
    the least one no power is computed. -/
def ofDecimal (negative : Bool) (digits : Nat) (exponent : Int) : UInt64 :=
  let top := (Nat.toDigits 10 digits).length + exponent
  let bits :=
    if digits = 0 ∨ top < -400 then 0
    else if 400 < top then infinity
    else
      let (n, d) := scaleTen digits 1 exponent
      ofRatio n d
  withSign negative bits

/-! ## 2. The parts of a double -/

/-- Whether the sign bit is set. -/
def isNegative (bits : UInt64) : Bool :=
  span 63 ≤ bits.toNat

/-- The biased exponent. -/
def biased (bits : UInt64) : Nat :=
  bits.toNat / span 52 % span 11

/-- The stored fraction. -/
def fraction (bits : UInt64) : Nat :=
  bits.toNat % span 52

/-- Whether the bits are those of a number. -/
def isFinite (bits : UInt64) : Bool :=
  biased bits < 2047

/-- The magnitude of a finite double is `m · 2 ^ q` with this `m`. -/
def significand (bits : UInt64) : Nat :=
  if biased bits = 0 then fraction bits else fraction bits + span 52

/-- The magnitude of a finite double is `m · 2 ^ q` with this `q`. -/
def power (bits : UInt64) : Int :=
  (max (biased bits) 1 : Nat) - 1075

/-- The magnitude of a finite double as a quotient. -/
def ratio (bits : UInt64) : Nat × Nat :=
  scaleTwo (significand bits) 1 (power bits)

/-! ## 3. Seven digits -/

/-- Moves up to the greatest `k` with `10 ^ k ≤ num / den`. -/
def raiseExponent (num den : Nat) : Nat → Int → Int
  | 0, k => k
  | fuel + 1, k =>
    let (n, d) := scaleTen num den (-(k + 1))
    if d ≤ n then raiseExponent num den fuel (k + 1) else k

/-- The greatest `k` with `10 ^ k ≤ num / den`, for positive numbers. The start is a lower bound
    that is off by at most a few. -/
def decimalExponent (num den : Nat) : Int :=
  raiseExponent num den 6 ((binaryExponent num den * 30103).fdiv 100000 - 2)

/-- A number in decimal with at least `width` digits. -/
def padded (width n : Nat) : String :=
  let digits := Nat.toDigits 10 n
  String.ofList (List.replicate (width - digits.length) '0' ++ digits)

/-- Seven digits and an exponent: one digit, a point, six digits, the sign of the exponent and at
    least two digits of it. -/
def scientificOf (negative : Bool) (digits : Nat) (exponent : Int) : String :=
  (if negative then "-" else "") ++ toString (digits / decimals 6) ++ "." ++
    padded 6 (digits % decimals 6)
    ++ "e" ++ (if exponent < 0 then "-" else "+") ++ padded 2 exponent.natAbs

/-- The seven digits nearest to a finite double and the exponent of the first one. -/
def sevenDigits (bits : UInt64) : Nat × Int :=
  let (num, den) := ratio bits
  if num = 0 then (0, 0)
  else
    let k := decimalExponent num den
    let (n, d) := scaleTen num den (6 - k)
    let digits := roundDiv n d
    if digits = decimals 7 then (decimals 6, k + 1) else (digits, k)

/-- The text of seven digits if it reads back as the same double. -/
def scientific? (bits : UInt64) : Option String :=
  if isFinite bits then
    let (digits, k) := sevenDigits bits
    if ofDecimal (isNegative bits) digits (k - 6) = bits then
      some (scientificOf (isNegative bits) digits k)
    else none
  else none

/-- The sixteen hexadecimal digits of the bits. -/
def hexadecimal (bits : UInt64) : String :=
  "0x" ++ String.ofList (Text.hexFixed 16 bits.toNat)

/-- How program text writes a floating point constant. -/
def text (bits : UInt64) : String :=
  (scientific? bits).getD (hexadecimal bits)

/-! ## 4. The fewest digits -/

/-- Whether `digits · 10 ^ s` reads back as the finite double: it lies between the midpoints to the
    neighbours, ends included where ties come to this double. The unit is a quarter of the last
    place, since the gap below a power of two is half as wide. -/
def readsBack (bits : UInt64) (digits : Nat) (s : Int) : Bool :=
  let m := significand bits
  let low := if m = span 52 ∧ 1 < biased bits then 4 * m - 1 else 4 * m - 2
  let high := 4 * m + 2
  let (n, d) := scaleTen digits 1 s
  let (n, d) := scaleTwo n d (2 - power bits)
  if m % 2 = 0 then low * d ≤ n && n ≤ high * d else low * d < n && n < high * d

/-- Which of two digits is taken where a double lies in the middle between them. -/
inductive Tie where
  | up
  | toEven
  deriving DecidableEq

/-- The lower number or the one above it, for a value in the middle between them. -/
def Tie.pick (tie : Tie) (below : Nat) : Nat :=
  match tie with
  | .up => below + 1
  | .toEven => if below % 2 = 0 then below else below + 1

/-- Of the two neighbours of a double among the multiples of `10 ^ s`, the nearer one that reads
    back. -/
def nearestOnGrid? (tie : Tie) (bits : UInt64) (s : Int) : Option Nat :=
  let (num, den) := ratio bits
  let (n, d) := scaleTen num den (-s)
  let below := n / d
  let above := below + 1
  match readsBack bits below s, readsBack bits above s with
  | true, true =>
    match compare (2 * n) ((below + above) * d) with
    | .lt => some below
    | .eq => some (tie.pick below)
    | .gt => some above
  | true, false => some below
  | false, true => some above
  | false, false => none

/-- The fewest digits, from `n` on, that read back, and the power of ten of the last one. -/
def fewestDigits (tie : Tie) (bits : UInt64) (k : Int) : (fuel n : Nat) → Nat × Int
  | 0, n => ((nearestOnGrid? tie bits (k - n + 1)).getD 0, k - n + 1)
  | fuel + 1, n =>
    match nearestOnGrid? tie bits (k - n + 1) with
    | some digits => (digits, k - n + 1)
    | none => fewestDigits tie bits k fuel (n + 1)

/-- The next power of ten above a single digit has a digit less at the power above. -/
def dropZero (digits : Nat) (s : Int) : Nat × Int :=
  if digits % 10 = 0 then (digits / 10, s + 1) else (digits, s)

/-- The fewest digits that read back as a finite double other than zero, and the power of ten of
    the last one. -/
def shortest (tie : Tie) (bits : UInt64) : Nat × Int :=
  let (num, den) := ratio bits
  let (digits, s) := fewestDigits tie bits (decimalExponent num den) 17 1
  dropZero digits s

/-- `digits · 10 ^ s` without an exponent. -/
def positionalOf (digits : Nat) (s : Int) : String :=
  if 0 ≤ s then toString (digits * decimals s.toNat)
  else
    let places := (-s).toNat
    toString (digits / decimals places) ++ "." ++ padded places (digits % decimals places)

/-- How messages about a program write a double: the fewest digits that read back, the greater ones
    on a tie, never an exponent, and no fraction for a whole number. -/
def positional (bits : UInt64) : String :=
  let sign := if isNegative bits then "-" else ""
  if isFinite bits then
    if significand bits = 0 then sign ++ "0"
    else
      let (digits, s) := shortest .up bits
      sign ++ positionalOf digits s
  else if fraction bits = 0 then sign ++ "inf"
  else "NaN"

/-- `digits · 10 ^ s` with a fraction, or with a signed exponent where the point would stand more
    than 16 places to the right or 5 to the left of the first digit. -/
def generalOf (digits : Nat) (s : Int) : String :=
  let all := toString digits
  let point : Int := all.length + s
  if 0 ≤ s ∧ point ≤ 16 then positionalOf digits s ++ ".0"
  else if -5 < point ∧ point ≤ 16 then positionalOf digits s
  else
    let mark := (if 0 < point then "e+" else "e") ++ toString (point - 1)
    if all.length = 1 then all ++ mark
    else (all.take 1).toString ++ "." ++ (all.drop 1).toString ++ mark

/-- How a document writes a finite double: the fewest digits that read back, the even ones on a
    tie. -/
def general (bits : UInt64) : String :=
  let sign := if isNegative bits then "-" else ""
  if significand bits = 0 then sign ++ "0.0"
  else
    let (digits, s) := shortest .toEven bits
    sign ++ generalOf digits s

end QirProfile.Binary64
