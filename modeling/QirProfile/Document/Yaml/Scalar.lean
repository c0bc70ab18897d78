import QirProfile.Document.Yaml.Character
import QirProfile.Text.Bytes

/-!
# The texts of a YAML document

A text stands plain, between single or double quotes, or as a block of lines. A break inside a plain
or quoted text is folded: one break is read as a blank, and of several breaks the first is lost;
only the separators of lines and of paragraphs are never lost. The functions here start behind the
opening mark and give the text and the place behind it; they refuse a text by giving nothing.

Ends of lines are taken to have one form already.
-/

namespace QirProfile.Yaml

/-! ## 1. Places -/

/-- A place in a document: what follows there, and the line and column. -/
structure Place where
  rest : List Char
  line : Nat := 0
  column : Nat := 0

namespace Place

/-- The place some characters further on the same line. -/
def skip (p : Place) (n : Nat) : Place :=
  { p with rest := p.rest.drop n, column := p.column + n }

/-- The place on the same line where `rest` is what follows. -/
def moveTo (p : Place) (rest : List Char) : Place := p.skip (p.rest.length - rest.length)

/-- The place behind the break that comes next, if one does. -/
def nextLine (p : Place) : Place :=
  match p.rest with
  | [] => p
  | _ :: rest => ⟨rest, p.line + 1, 0⟩

/-- Whether a mark between documents stands here. -/
def atMark (p : Place) : Bool := p.column == 0 && isMark p.rest

end Place

/-! ## 2. Folding -/

/-- A text under way. All parts are kept with the last character first. -/
structure Folding where
  /-- The characters that are settled. -/
  done : List Char := []
  /-- The blanks behind them on their line. -/
  blanks : List Char := []
  /-- Whether the line has ended behind them. -/
  broken : Bool := false
  /-- The first break behind them; it is missing where a backslash stands in front of it. -/
  lead : List Char := []
  /-- The further breaks. -/
  more : List Char := []

/-- What breaks are read as where the lines around them are joined, last character first. -/
def joint (lead more : List Char) : List Char :=
  if lead = ['\n'] then (if more.isEmpty then [' '] else more) else more ++ lead

namespace Folding

/-- The characters with the blanks or breaks behind them. -/
def settle (f : Folding) : List Char :=
  (if f.broken then joint f.lead f.more else f.blanks) ++ f.done

/-- Adds a character that is neither a blank nor a break. -/
def push (f : Folding) (c : Char) : Folding := { done := c :: f.settle }

/-- Adds a blank; after a break it is lost. -/
def blank (f : Folding) (c : Char) : Folding :=
  if f.broken then f else { f with blanks := c :: f.blanks }

/-- Adds a break; the blanks before it are lost. -/
def newline (f : Folding) (c : Char) : Folding :=
  if f.broken then { f with more := c :: f.more }
  else { f with blanks := [], broken := true, lead := [c] }

/-- Joins the next line to this one without a trace. -/
def join (f : Folding) : Folding := { done := f.settle, broken := true }

/-- Whether blanks or breaks stand behind the characters that are settled. -/
def isParted (f : Folding) : Bool := f.broken || !f.blanks.isEmpty

/-- The whole text, with the blanks and breaks at its end. -/
def text (f : Folding) : String := String.ofList f.settle.reverse

/-- The text without the blanks and breaks at its end. -/
def trimmed (f : Folding) : String := String.ofList f.done.reverse

end Folding

/-! ## 3. Quotes -/

/-- The text up to the closing single quote. A mark between documents must not stand inside. -/
def readSingle (f : Folding) (line column : Nat) : List Char → Option (String × Place)
  | '\'' :: '\'' :: rest => readSingle (f.push '\'') line (column + 2) rest
  | '\'' :: rest => some (f.text, ⟨rest, line, column + 1⟩)
  | c :: rest =>
    if isBreak c then readSingle (f.newline c) (line + 1) 0 rest
    else if isBlank c then readSingle (f.blank c) line (column + 1) rest
    else if column = 0 ∧ isMark (c :: rest) then none
    else readSingle (f.push c) line (column + 1) rest
  | [] => none

/-- What a single character after a backslash stands for. -/
def escapes : List (Char × Char) :=
  [('0', '\x00'), ('a', '\x07'), ('b', '\x08'), ('t', '\t'), ('\t', '\t'), ('n', '\n'),
   ('v', '\x0b'), ('f', '\x0c'), ('r', '\r'), ('e', '\x1b'), (' ', ' '), ('"', '"'), ('/', '/'),
   ('\\', '\\'), ('N', '\x85'), ('_', '\xa0'), ('L', '\u2028'), ('P', '\u2029')]

/-- The character of a number in hexadecimal digits. -/
def codePoint? (digits : List Char) : Option Char :=
  (Text.hexNumber? digits).bind fun n =>
    if n < 0xD800 ∨ (0xE000 ≤ n ∧ n ≤ 0x10FFFF) then some (Char.ofNat n) else none

/-- The text up to the closing double quote. A backslash in front of a break joins two lines. -/
def readDouble (f : Folding) (line column : Nat) : List Char → Option (String × Place)
  | '"' :: rest => some (f.text, ⟨rest, line, column + 1⟩)
  | '\\' :: 'x' :: a :: b :: rest => do
    readDouble (f.push (← codePoint? [a, b])) line (column + 4) rest
  | '\\' :: 'u' :: a :: b :: c :: d :: rest => do
    readDouble (f.push (← codePoint? [a, b, c, d])) line (column + 6) rest
  | '\\' :: 'U' :: a :: b :: c :: d :: e :: g :: h :: i :: rest => do
    readDouble (f.push (← codePoint? [a, b, c, d, e, g, h, i])) line (column + 10) rest
  | '\\' :: c :: rest =>
    if isBreak c then readDouble f.join (line + 1) 0 rest
    else do readDouble (f.push (← escapes.lookup c)) line (column + 2) rest
  | c :: rest =>
    if isBreak c then readDouble (f.newline c) (line + 1) 0 rest
    else if isBlank c then readDouble (f.blank c) line (column + 1) rest
    else if column = 0 ∧ isMark (c :: rest) then none
    else readDouble (f.push c) line (column + 1) rest
  | [] => none

/-! ## 4. Plain texts -/

/-- A plain text as far as it goes, and the place where it stops. Outside brackets its further lines
    stand at `indent` or to the right of it, and a tab must not stand in front of that column. A
    comment, a colon that ends a key, or a mark between documents ends the text. -/
def readPlain (inside : Bool) (indent : Int) (f : Folding) (line column : Nat) :
    List Char → Option (Folding × Place)
  | [] => some (f, ⟨[], line, column⟩)
  | c :: rest =>
    if isBreak c then readPlain inside indent (f.newline c) (line + 1) 0 rest
    else if isBlank c then
      if f.broken ∧ c = '\t' ∧ column < indent then none
      else readPlain inside indent (f.blank c) line (column + 1) rest
    else
      let lineEnds := f.isParted &&
        (c == '#' || (column == 0 && isMark (c :: rest)) || (!inside && column < indent))
      let wordEnds := (c == ':' && blankAhead rest) || (inside && isBracket c)
      if lineEnds then some (f, ⟨c :: rest, line, column⟩)
      else if inside ∧ c = ':' ∧ rest.head?.any (fun d => d == '?' || isBracket d) then none
      else if wordEnds then some (f, ⟨c :: rest, line, column⟩)
      else readPlain inside indent (f.push c) line (column + 1) rest

/-! ## 5. Blocks -/

/-- What becomes of the breaks at the end of a block. -/
inductive Chomp where
  | strip
  | clip
  | keep
  deriving DecidableEq

/-- The head of a block: what becomes of the breaks at its end, and how far it is indented, or zero
    where its first line says so. -/
structure BlockHead where
  chomp : Chomp
  increment : Nat

/-- The mark for the end of a block, if one comes next. -/
def takeChomp : List Char → Chomp × List Char
  | '+' :: rest => (.keep, rest)
  | '-' :: rest => (.strip, rest)
  | rest => (.clip, rest)

/-- The indent of a block, if a digit comes next. It is not zero. -/
def takeIncrement : List Char → Option (Nat × List Char)
  | c :: rest =>
    if c = '0' then none
    else if c.isDigit then some (c.toNat - '0'.toNat, rest)
    else some (0, c :: rest)
  | [] => some (0, [])

/-- What follows the rest of a line that holds blanks and a comment only, from its break on. -/
def lineEnd? (cs : List Char) : Option (List Char) :=
  let rest := cs.dropWhile isBlank
  let rest := if rest.head? = some '#' then rest.dropWhile (!isBreak ·) else rest
  if rest.head?.all isBreak then some rest else none

/-- The head of a block and what follows its line, from the break on. The two marks may stand in
    either order. -/
def readHead (cs : List Char) : Option (BlockHead × List Char) := do
  let (chomp, rest) := takeChomp cs
  let (increment, rest) ← takeIncrement rest
  let (chomp, rest) := if chomp = .clip then takeChomp rest else (chomp, rest)
  return (⟨chomp, increment⟩, ← lineEnd? rest)

/-- The empty lines at the start of a block: the widest indent up to the first line that is not
    empty, the breaks with the last first, and the place. A tab must not stand in the indent. -/
def leadingLines (widest : Nat) (breaks : List Char) (line column : Nat) :
    List Char → Option (Nat × List Char × Place)
  | [] => some (max widest column, breaks, ⟨[], line, column⟩)
  | c :: rest =>
    if c = ' ' then leadingLines widest breaks line (column + 1) rest
    else if c = '\t' then none
    else if isBreak c then leadingLines (max widest column) (c :: breaks) (line + 1) 0 rest
    else some (max widest column, breaks, ⟨c :: rest, line, column⟩)

/-- A block under way. All parts are kept with the last character first. -/
structure BlockText where
  done : List Char := []
  /-- The break of the last line that is not empty. -/
  lead : List Char := []
  /-- The breaks of the empty lines since then. -/
  more : List Char := []
  /-- Whether that line started with a blank, which keeps the breaks around it. -/
  blank : Bool := false

namespace BlockText

/-- Starts a line that is not empty with its first character. -/
def start (b : BlockText) (folds : Bool) (c : Char) : BlockText :=
  let breaks := if folds && !b.blank && !isBlank c then joint b.lead b.more else b.more ++ b.lead
  { done := c :: breaks ++ b.done, blank := isBlank c }

/-- The text of a block. -/
def text (b : BlockText) (chomp : Chomp) : String :=
  let tail := match chomp with
    | .strip => []
    | .clip => b.lead
    | .keep => b.lead ++ b.more.reverse
  String.ofList (b.done.reverse ++ tail)

end BlockText

/-- The lines of a block, up to the first one that stands left of the indent. `within` says whether
    the place is inside a line. -/
def blockLines (folds : Bool) (indent : Nat) (b : BlockText) (within : Bool) (line column : Nat) :
    List Char → Option (BlockText × Place)
  | [] => some (b, ⟨[], line, column⟩)
  | c :: rest =>
    if within then
      if isBreak c then blockLines folds indent { b with lead := [c] } false (line + 1) 0 rest
      else blockLines folds indent { b with done := c :: b.done } true line (column + 1) rest
    else if isBreak c then
      blockLines folds indent { b with more := c :: b.more } false (line + 1) 0 rest
    else if column < indent ∧ c = ' ' then
      blockLines folds indent b false line (column + 1) rest
    else if column < indent ∧ c = '\t' then none
    else if column = indent then
      blockLines folds indent (b.start folds c) true line (column + 1) rest
    else some (b, ⟨c :: rest, line, column⟩)

/-- The block behind its opening mark, inside a block of the document that stands at `parent`. -/
def readBlock (folds : Bool) (parent : Int) (p : Place) : Option (String × Place) := do
  let (head, rest) ← readHead p.rest
  let p := (p.moveTo rest).nextLine
  if head.increment = 0 then
    let (widest, breaks, p) ← leadingLines 0 [] p.line p.column p.rest
    let indent := max widest (max (parent + 1).toNat 1)
    let (b, p) ← blockLines folds indent { more := breaks } false p.line p.column p.rest
    return (b.text head.chomp, p)
  else
    let indent := parent.toNat + head.increment
    let (b, p) ← blockLines folds indent {} false p.line p.column p.rest
    return (b.text head.chomp, p)

end QirProfile.Yaml
