import QirProfile.Document.Datum

/-!
# What a plain word of a YAML document means

A word without quotes can be the empty value, a truth value, a number or a text. Integers may be
written in four bases; digits after a leading zero are a text. An integer that fits 128 bits and
not 64 is refused.
-/

namespace QirProfile.Yaml

/-- Digits after a leading zero, with an optional sign: a text, and no number. -/
def isPaddedDigits (cs : List Char) : Bool :=
  let unsigned := match cs with
    | '-' :: r | '+' :: r => r
    | _ => cs
  match unsigned with
  | '0' :: rest => !rest.isEmpty && rest.all Char.isDigit
  | _ => false

/-- The value of a digit. -/
def digitValue? (c : Char) : Option Nat := Text.hexValue? c

/-- A number by its digits. -/
def numberOf? (base : Nat) (cs : List Char) : Option Nat :=
  if cs.isEmpty then none
  else cs.foldlM (fun n c => (digitValue? c).bind fun d =>
    if d < base then some (base * n + d) else none) 0

/-- The base that a word announces, and its digits. -/
def announcedBase? : List Char → Option (Nat × List Char)
  | '0' :: 'x' :: rest => some (16, rest)
  | '0' :: 'o' :: rest => some (8, rest)
  | '0' :: 'b' :: rest => some (2, rest)
  | _ => none

/-- The size of an unsigned number. -/
def magnitude? (cs : List Char) : Option Nat :=
  match announcedBase? cs with
  | some (base, rest) => numberOf? base rest
  | none => if isPaddedDigits cs then none else numberOf? 10 cs

/-- An integer of any size. -/
def integer? : List Char → Option Int
  | '+' :: rest => (magnitude? rest).map Int.ofNat
  | '-' :: rest => (magnitude? rest).map fun n => -(n : Int)
  | cs => (magnitude? cs).map Int.ofNat

/-- The exponent of a decimal number: a sign and digits, or nothing at all. -/
def exponent? : List Char → Option Int
  | [] => some 0
  | e :: rest =>
    if e = 'e' ∨ e = 'E' then
      match rest with
      | '-' :: r => (numberOf? 10 r).map fun n => -(n : Int)
      | '+' :: r => (numberOf? 10 r).map Int.ofNat
      | r => (numberOf? 10 r).map Int.ofNat
    else none

/-- An unsigned decimal number: digits, a point, digits, an exponent; at least one digit. -/
def decimal? (cs : List Char) : Option (Nat × Int) :=
  let whole := cs.takeWhile Char.isDigit
  let rest := cs.dropWhile Char.isDigit
  let (fraction, rest) := match rest with
    | '.' :: r => (r.takeWhile Char.isDigit, r.dropWhile Char.isDigit)
    | _ => ([], rest)
  do
    let n ← numberOf? 10 (whole ++ fraction)
    let e ← exponent? rest
    return (n, e - fraction.length)

/-- A finite double. -/
def double? (cs : List Char) : Option UInt64 :=
  let (negative, body) := match cs with
    | '-' :: r => (true, r)
    | '+' :: r => (false, r)
    | _ => (false, cs)
  do
    let (n, e) ← decimal? body
    let bits := Binary64.ofDecimal negative n e
    if Binary64.isFinite bits then some bits else none

/-- Words for what is no finite number; a document keeps nothing of it. -/
def unbounded : List String :=
  [".inf", ".Inf", ".INF", "+.inf", "+.Inf", "+.INF", "-.inf", "-.Inf", "-.INF", ".nan", ".NaN",
   ".NAN"]

/-- Whether a word writes the empty value. -/
def isNullWord (s : String) : Bool := ["null", "Null", "NULL", "~"].contains s

/-- The value of a plain word. -/
def resolve? (s : String) : Option Datum :=
  if s = "" ∨ isNullWord s then some .null
  else if ["true", "True", "TRUE"].contains s then some (.bool true)
  else if ["false", "False", "FALSE"].contains s then some (.bool false)
  else
    match integer? s.toList with
    | some n =>
      if -(span 63 : Int) ≤ n ∧ n < span 64 then some (.int n)
      else if -(span 127 : Int) ≤ n ∧ n < span 128 then none
      else some (((double? s.toList).map .float).getD (.text s))
    | none =>
      if isPaddedDigits s.toList then some (.text s)
      else if unbounded.contains s then some .null
      else some (((double? s.toList).map .float).getD (.text s))

/-- Whether a plain word means itself. -/
def isPlainText (s : String) : Bool :=
  !isPaddedDigits s.toList &&
    match resolve? s with
    | some (.text _) => true
    | _ => false

end QirProfile.Yaml
