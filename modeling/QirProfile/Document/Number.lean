import QirProfile.Document.Datum

/-!
# The numbers of a JSON document

A number without a fraction and an exponent is an integer if 64 bits hold it. All others are
doubles: the leading digits that 64 bits hold are taken as one double, which is scaled by a power of
ten in one more operation. For a few digits and a small exponent that is the nearest double; for
others the last place can be off.
-/

namespace QirProfile

/-! ## 1. Operations on magnitudes -/

namespace Binary64

/-- The product of two finite doubles without signs. -/
def product (a b : Nat) : Nat :=
  let (n, d) := ratio (UInt64.ofNat a)
  let (m, e) := ratio (UInt64.ofNat b)
  ofRatio (n * m) (d * e)

/-- The quotient of two finite doubles without signs, the second one not zero. -/
def quotient (a b : Nat) : Nat :=
  let (n, d) := ratio (UInt64.ofNat a)
  let (m, e) := ratio (UInt64.ofNat b)
  ofRatio (n * e) (d * m)

/-- The double nearest to a power of ten. -/
def powerOfTen (e : Nat) : Nat := ofRatio (decimals e) 1

/-- A double scaled by a power of ten. No double above the 308th power has an inverse to divide by,
    so that a further power takes a second division. -/
def scaled (a : Nat) (e : Int) : Nat :=
  if a = 0 ∨ e < -616 then 0
  else if 308 < e then infinity
  else if 0 ≤ e then product a (powerOfTen e.toNat)
  else if -308 ≤ e then quotient a (powerOfTen (-e).toNat)
  else quotient (quotient a (powerOfTen 308)) (powerOfTen (-e - 308).toNat)

end Binary64

/-! ## 2. Digits -/

/-- Digits under way. -/
structure Digits where
  /-- The number that the leading digits write. -/
  value : Nat := 0
  /-- The power of ten of the last of them. -/
  exponent : Int := 0
  /-- Whether the point has been read. -/
  behindPoint : Bool := false
  /-- Whether the leading digits are complete. -/
  full : Bool := false

/-- Adds a digit or the point. Digits that 64 bits cannot hold are left out. -/
def Digits.push (d : Digits) (c : Char) : Digits :=
  let value := 10 * d.value + (c.toNat - '0'.toNat)
  if c = '.' then { d with behindPoint := true, full := false }
  else if d.full || span 64 ≤ value then
    { d with exponent := if d.behindPoint then d.exponent else d.exponent + 1, full := true }
  else { d with value := value, exponent := if d.behindPoint then d.exponent - 1 else d.exponent }

/-! ## 3. Numbers -/

/-- The exponent behind its mark. -/
def exponentOf : List Char → Int
  | _ :: '-' :: ds => -((ds.foldl Digits.push {}).value : Int)
  | _ :: '+' :: ds => (ds.foldl Digits.push {}).value
  | _ :: ds => (ds.foldl Digits.push {}).value
  | [] => 0

/-- The value of a number of a JSON document. A zero with a sign is a double. -/
def Datum.ofNumber (text : String) : Datum :=
  let cs := text.toList
  let negative := cs.head? = some '-'
  let body := if negative then cs.drop 1 else cs
  let isMantissa := fun c : Char => c.isDigit || c == '.'
  let mantissa := body.takeWhile isMantissa
  let d := mantissa.foldl Digits.push {}
  let n : Int := if negative then -(d.value : Int) else d.value
  let whole := body.all Char.isDigit && d.exponent == 0
  if whole ∧ -(span 63 : Int) ≤ n ∧ !(negative ∧ n = 0) then .int n
  else
    let e := d.exponent + exponentOf (body.dropWhile isMantissa)
    .float (Binary64.withSign negative (Binary64.scaled (Binary64.ofRatio d.value 1) e))

end QirProfile
