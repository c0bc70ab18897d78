/-!
# Bytes, hexadecimal digits and UTF-8

Program text is a `String`; byte-string constants and escapes work on bytes. This file fixes the
three readings the rest of the library uses:

* a nibble and a byte as upper-case hexadecimal digits, and back (`hexDigit`, `hexValue?`);
* a text as its UTF-8 bytes (`utf8Bytes`);
* any bytes as a text (`decodeLossy`): what is not UTF-8 becomes U+FFFD, one for each longest
  sequence that starts a character and breaks off.
-/

namespace QirProfile.Text

/-! ## 1. Hexadecimal digits -/

/-- The upper-case hexadecimal digit of a number below 16. -/
def hexDigit (n : Nat) : Char :=
  if n < 10 then Char.ofNat (48 + n) else Char.ofNat (55 + n)

/-- The value of a hexadecimal digit, in either case. -/
def hexValue? (c : Char) : Option Nat :=
  if '0' ≤ c ∧ c ≤ '9' then some (c.toNat - 48)
  else if 'A' ≤ c ∧ c ≤ 'F' then some (c.toNat - 55)
  else if 'a' ≤ c ∧ c ≤ 'f' then some (c.toNat - 87)
  else none

/-- A byte as two digits. -/
def hexByte (b : UInt8) : List Char :=
  [hexDigit (b.toNat / 16), hexDigit (b.toNat % 16)]

/-- The lowest `width` hexadecimal digits of a number, highest first. -/
def hexFixed : (width : Nat) → Nat → List Char
  | 0, _ => []
  | w + 1, n => hexFixed w (n / 16) ++ [hexDigit (n % 16)]

/-- The number that hexadecimal digits write, or nothing if one of them is no digit. -/
def hexNumber? (cs : List Char) : Option Nat :=
  cs.foldlM (fun n c => (hexValue? c).map (16 * n + ·)) 0

theorem hexFixed_length (w n : Nat) : (hexFixed w n).length = w := by
  induction w generalizing n with
  | zero => rfl
  | succ w ih => simp [hexFixed, ih]

/-! ## 2. UTF-8 -/

/-- The UTF-8 bytes of a list of characters. -/
def utf8 (cs : List Char) : List UInt8 :=
  cs.flatMap String.utf8EncodeChar

/-- The UTF-8 bytes of a text. -/
def utf8Bytes (s : String) : List UInt8 :=
  utf8 s.toList

/-- A byte that continues a character. -/
def isContinuation (b : UInt8) : Bool :=
  0x80 ≤ b && b ≤ 0xBF

/-- Whether the second byte may follow the first one of a character of three bytes. -/
def startsThree (a b : UInt8) : Bool :=
  (a == 0xE0 && 0xA0 ≤ b && b ≤ 0xBF) || (0xE1 ≤ a && a ≤ 0xEC && isContinuation b) ||
  (a == 0xED && 0x80 ≤ b && b ≤ 0x9F) || (0xEE ≤ a && a ≤ 0xEF && isContinuation b)

/-- Whether the second byte may follow the first one of a character of four bytes. -/
def startsFour (a b : UInt8) : Bool :=
  (a == 0xF0 && 0x90 ≤ b && b ≤ 0xBF) || (0xF1 ≤ a && a ≤ 0xF3 && isContinuation b) ||
  (a == 0xF4 && 0x80 ≤ b && b ≤ 0x8F)

/-- How many bytes after the first belong to a character that breaks off: the longest sequence
    that could still have become a character. -/
def brokenTail : UInt8 → List UInt8 → Nat
  | a, b :: c :: _ =>
    if startsThree a b then 1
    else if startsFour a b then (if isContinuation c then 2 else 1)
    else 0
  | a, [b] => if startsThree a b || startsFour a b then 1 else 0
  | _, [] => 0

/-- The character at the head of the bytes, if there is one. -/
def headChar? (bytes : List UInt8) : Option Char :=
  ByteArray.utf8DecodeChar? ⟨(bytes.take 4).toArray⟩ 0

/-- Reads at most `fuel` characters; `decodeLossy` gives enough for all of them. -/
def decodeLossyFuel : Nat → List UInt8 → List Char
  | 0, _ => []
  | _ + 1, [] => []
  | fuel + 1, b :: rest =>
    match headChar? (b :: rest) with
    | some c => c :: decodeLossyFuel fuel (rest.drop (c.utf8Size - 1))
    | none => Char.ofNat 0xFFFD :: decodeLossyFuel fuel (rest.drop (brokenTail b rest))

/-- Bytes as characters. What is not UTF-8 becomes U+FFFD. -/
def decodeLossy (bytes : List UInt8) : List Char :=
  decodeLossyFuel bytes.length bytes

end QirProfile.Text
