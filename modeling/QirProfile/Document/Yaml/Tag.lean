import QirProfile.Document.Yaml.Scalar

/-!
# Tags and directives

A tag says what kind of value follows. It is written out between angle brackets, or shortened with a
handle, which a directive in front of the document can define. A tag is a row of bytes, since it may
hold escaped ones; a byte zero ends it.
-/

namespace QirProfile.Yaml

/-! ## 1. Rows of bytes -/

/-- Characters of a tag. Those that have a meaning inside brackets may stand only where the tag
    cannot be mistaken for something else. -/
def isTagLetter (free : Bool) (c : Char) : Bool :=
  isNameLetter c ||
    [';', '/', '?', ':', '@', '&', '=', '+', '$', '.', '!', '~', '*', '\'', '(', ')'].contains c ||
    (free && [',', '[', ']'].contains c)

/-- The number of bytes that follow the first byte of a character. -/
def followers? (b : UInt8) : Option Nat :=
  if b < 0x80 then some 0
  else if 0xC0 ≤ b ∧ b < 0xE0 then some 1
  else if 0xE0 ≤ b ∧ b < 0xF0 then some 2
  else if 0xF0 ≤ b ∧ b < 0xF8 then some 3
  else none

/-- The bytes of a tag as far as it goes, and what follows. A percent sign and two digits write one
    byte; `open_` bytes of a character are still to come in this way. -/
def readBytes (free : Bool) : (open_ : Nat) → List Char → Option (List UInt8 × List Char)
  | open_, '%' :: a :: b :: rest => do
    let n ← Text.hexNumber? [a, b]
    let byte := UInt8.ofNat n
    let left ←
      match open_ with
      | 0 => followers? byte
      | k + 1 => if 0x80 ≤ byte ∧ byte < 0xC0 then some k else none
    let (bytes, after) ← readBytes free left rest
    return (byte :: bytes, after)
  | 0, c :: rest =>
    if c = '%' then none
    else if isTagLetter free c then do
      let (bytes, after) ← readBytes free 0 rest
      return (Text.utf8 [c] ++ bytes, after)
    else some ([], c :: rest)
  | 0, [] => some ([], [])
  | _ + 1, _ => none

/-- The bytes of a tag, of which there must be one at least. -/
def readSomeBytes (free : Bool) (cs : List Char) : Option (List UInt8 × List Char) := do
  let (bytes, rest) ← readBytes free 0 cs
  if bytes.isEmpty then none else some (bytes.takeWhile (· ≠ 0), rest)

/-! ## 2. Tags -/

/-- A tag as it is written: a handle, which is empty where none is used, and what follows it. -/
structure Tag where
  handle : String
  suffix : List UInt8

/-- The bytes of the tag without a name, with which the tags of a document start. -/
def bareTag : List UInt8 := Text.utf8Bytes "!"

/-- The tag behind its exclamation mark, and what follows. -/
def readTagParts (cs : List Char) : Option (Tag × List Char) :=
  match cs with
  | '<' :: rest => do
    let (bytes, rest) ← readSomeBytes true rest
    match rest with
    | '>' :: rest => return (⟨"", bytes⟩, rest)
    | _ => none
  | _ =>
    let name := cs.takeWhile isNameLetter
    match cs.dropWhile isNameLetter with
    | '!' :: rest => do
      let (bytes, rest) ← readSomeBytes false rest
      return (⟨"!" ++ String.ofList name ++ "!", bytes⟩, rest)
    | rest => do
      let (bytes, rest) ← readBytes false 0 rest
      let suffix := (Text.utf8 name ++ bytes).takeWhile (· ≠ 0)
      return (if suffix.isEmpty then ⟨"", bareTag⟩ else ⟨"!", suffix⟩, rest)

/-- The tag behind its exclamation mark, and what follows. A blank, a break or the end follows, or a
    comma inside brackets. -/
def readTag (inside : Bool) (cs : List Char) : Option (Tag × List Char) := do
  let (tag, rest) ← readTagParts cs
  if blankAhead rest || (inside && rest.head? == some ',') then some (tag, rest) else none

/-! ## 3. Names -/

/-- The name of an anchor, and what follows. Only some characters may follow it. -/
def readName (cs : List Char) : Option (String × List Char) :=
  let name := cs.takeWhile isNameLetter
  let rest := cs.dropWhile isNameLetter
  let ends := blankAhead rest || rest.head?.any
    (['?', ':', ',', ']', '\x7d', '%', '@', '\x60'].contains ·)
  if name.isEmpty || !ends then none else some (String.ofList name, rest)

/-! ## 4. Directives -/

/-- A directive in front of a document. -/
inductive Directive where
  /-- The version of the format. -/
  | version (major minor : Nat)
  /-- What a handle stands for. -/
  | handle (name : String) (start : List UInt8)

/-- A number of at most nine digits. -/
def readNumber (cs : List Char) : Option (Nat × List Char) :=
  let digits := cs.takeWhile Char.isDigit
  if digits.isEmpty || 9 < digits.length then none
  else some (digits.foldl (fun n c => 10 * n + (c.toNat - '0'.toNat)) 0, cs.dropWhile Char.isDigit)

/-- A version: two numbers with a point between them. -/
def readVersion (cs : List Char) : Option (Directive × List Char) := do
  let (major, rest) ← readNumber cs
  match rest with
  | '.' :: rest =>
    let (minor, rest) ← readNumber rest
    return (.version major minor, rest)
  | _ => none

/-- A handle and the start of the tags that it shortens. -/
def readHandle (cs : List Char) : Option (Directive × List Char) := do
  let (name, rest) ←
    match cs with
    | '!' :: rest =>
      let name := rest.takeWhile isNameLetter
      match rest.dropWhile isNameLetter with
      | '!' :: rest => some ("!" ++ String.ofList name ++ "!", rest)
      | rest => if name.isEmpty then some ("!", rest) else none
    | _ => none
  if rest.head?.any isBlank then
    let (start, rest) ← readSomeBytes true (rest.dropWhile isBlank)
    if blankAhead rest then some (.handle name start, rest) else none
  else none

/-- The directive behind its percent sign, and what follows its line, from the break on. -/
def readDirective (cs : List Char) : Option (Directive × List Char) := do
  let name := cs.takeWhile isNameLetter
  let rest := cs.dropWhile isNameLetter
  if !blankAhead rest then none
  let rest := rest.dropWhile isBlank
  let (directive, rest) ←
    if name = ['Y', 'A', 'M', 'L'] then readVersion rest
    else if name = ['T', 'A', 'G'] then readHandle rest
    else none
  return (directive, ← lineEnd? rest)

end QirProfile.Yaml
