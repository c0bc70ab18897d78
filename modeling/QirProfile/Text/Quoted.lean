import QirProfile.Text.Bytes
import QirProfile.Text.Unseen

/-!
# Quoted text

In program text, a symbol is written bare when it reads as one word, and between double quotes
otherwise. Between quotes, a quote, a backslash and every byte outside printable ASCII stand as a
backslash and two hexadecimal digits. Reading undoes this, and takes a doubled backslash and any other
backslash as they stand.
-/

namespace QirProfile.Text

/-! ## 1. Word characters -/

/-- An ASCII letter, or one of the signs `-`, `$`, `.` and `_`: what a word may start with. -/
def isWordStart (c : Char) : Bool :=
  c.isAlpha || c == '-' || c == '$' || c == '.' || c == '_'

/-- What may stand in a word. -/
def isWordChar (c : Char) : Bool :=
  isWordStart c || c.isDigit

/-- A name that can be written without quotes: not empty, word characters only, no digit first. -/
def isBare : List Char → Bool
  | [] => false
  | c :: cs => isWordStart c && cs.all isWordChar

/-! ## 2. Escapes -/

/-- A byte that is written as it is. -/
def isPlainByte (b : UInt8) : Bool :=
  0x20 ≤ b && b < 0x7F && b != 0x22 && b != 0x5C

/-- A byte inside quotes. -/
def escapeByte (b : UInt8) : List Char :=
  if isPlainByte b then [Char.ofNat b.toNat] else '\\' :: hexByte b

/-- Bytes inside quotes. -/
def escapeBytes (bytes : List UInt8) : String :=
  String.ofList (bytes.flatMap escapeByte)

/-- The value of two bytes after a backslash. A plus sign may stand for the first digit. -/
def escapeValue? (a b : UInt8) : Option UInt8 :=
  let digit (x : UInt8) := hexValue? (Char.ofNat x.toNat)
  if a == 0x2B then (digit b).map UInt8.ofNat
  else match digit a, digit b with
    | some high, some low => some (UInt8.ofNat (16 * high + low))
    | _, _ => none

/-- The bytes that text between quotes stands for. -/
def unescapeBytes : List UInt8 → List UInt8
  | [] => []
  | 0x5C :: 0x5C :: rest => 0x5C :: unescapeBytes rest
  | 0x5C :: a :: b :: rest =>
    match escapeValue? a b with
    | some v => v :: unescapeBytes rest
    | none => 0x5C :: unescapeBytes (a :: b :: rest)
  | b :: rest => b :: unescapeBytes rest

/-- The text that text between quotes stands for. -/
def unescape (cs : List Char) : String :=
  String.ofList (decodeLossy (unescapeBytes (utf8 cs)))

/-! ## 3. Names -/

/-- A symbol's name as it stands after its sigil. -/
def quoteName (name : String) : String :=
  if isBare name.toList then name else "\"" ++ escapeBytes (utf8Bytes name) ++ "\""

/-- A name of ASCII digits only. -/
def isNumeral (name : String) : Bool :=
  name != "" && name.toList.all Char.isDigit

/-- The name of a function or global with its sigil. A numeral is a number and not quoted. -/
def globalName (name : String) : String :=
  "@" ++ if isNumeral name then name else quoteName name

/-! ## 4. Messages and documents

Messages quote a text between double quotes and escape what would not show: quotes, backslashes,
control characters, and characters without a glyph of their own. JSON escapes only what its grammar
asks for. -/

/-- A character inside quotes of a message. -/
def escapeForMessage (c : Char) : List Char :=
  match c with
  | '\x00' => ['\\', '0']
  | '\t' => ['\\', 't']
  | '\r' => ['\\', 'r']
  | '\n' => ['\\', 'n']
  | '"' => ['\\', '"']
  | '\\' => ['\\', '\\']
  | c => if isUnseen c then "\\u\x7b".toList ++ Nat.toDigits 16 c.toNat ++ ['\x7d'] else [c]

/-- A text between quotes, as messages show it. -/
def quoted (s : String) : String :=
  "\"" ++ String.ofList (s.toList.flatMap escapeForMessage) ++ "\""

/-- A character inside a JSON string. -/
def escapeForJson (c : Char) : List Char :=
  match c with
  | '"' => ['\\', '"']
  | '\\' => ['\\', '\\']
  | '\n' => ['\\', 'n']
  | '\r' => ['\\', 'r']
  | '\t' => ['\\', 't']
  | '\x08' => ['\\', 'b']
  | '\x0c' => ['\\', 'f']
  | c =>
    if c.toNat < 0x20 then ['\\', 'u', '0', '0'] ++ (hexFixed 2 c.toNat).map Char.toLower else [c]

/-- A JSON string. -/
def jsonQuoted (s : String) : String :=
  "\"" ++ String.ofList (s.toList.flatMap escapeForJson) ++ "\""

end QirProfile.Text
