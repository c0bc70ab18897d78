import QirProfile.Document.Yaml.Tag

/-!
# From characters to tokens

The tokens show the layout: outside brackets, a list or a map starts where its first item or key
stands to the right of what is around it, and ends where something stands to the left of it. Whether
a text is a key shows only at the colon behind it. Therefore a place where a key may start is kept
as a candidate; a candidate is given up when its line ends or after 1024 characters, and the
document is refused if a key had to stand there.
-/

namespace QirProfile.Yaml

/-- A token of a document. -/
inductive Token where
  | directive (d : Directive)
  | documentStart
  | documentEnd
  /-- The start of a list by layout. -/
  | listStart
  /-- The start of a map by layout. -/
  | mapStart
  /-- The end of a list or a map by layout. -/
  | blockEnd
  | openList
  | closeList
  | openMap
  | closeMap
  | comma
  | item
  | key
  | value
  | alias (name : String)
  | anchor (name : String)
  | tag (t : Tag)
  | scalar (plain : Bool) (text : String)

/-! ## 1. The state of reading -/

/-- A place where a key may have started. -/
structure Candidate where
  /-- The number of tokens in front of it. -/
  before : Nat
  line : Nat
  column : Nat
  /-- Whether nothing but a key may stand there. -/
  required : Bool

/-- Whether a candidate can still be a key at a place. -/
def Candidate.isFresh (c : Candidate) (p : Place) : Bool :=
  c.line == p.line && p.column ≤ c.column + 1024

/-- What has been read of a document. -/
structure Scan where
  place : Place
  /-- The tokens so far, the last one first. -/
  tokens : List Token := []
  /-- The number of tokens. -/
  count : Nat := 0
  /-- The column of the innermost list or map by layout, or -1. -/
  indent : Int := -1
  /-- The columns around it. -/
  outer : List Int := []
  /-- The candidate on this level of brackets. -/
  candidate : Option Candidate := none
  /-- The candidates on the levels around it. -/
  waiting : List (Option Candidate) := []
  /-- Whether a key may start here. -/
  keyAllowed : Bool := true

namespace Scan

/-- Whether the place is inside brackets. -/
def inside (s : Scan) : Bool := !s.waiting.isEmpty

/-- Adds a token. -/
def push (s : Scan) (t : Token) : Scan :=
  { s with tokens := t :: s.tokens, count := s.count + 1 }

/-- Puts a token behind the first `before` ones. -/
def insert (s : Scan) (before : Nat) (t : Token) : Scan :=
  let back := s.count - before
  { s with tokens := s.tokens.take back ++ t :: s.tokens.drop back, count := s.count + 1 }

/-- Goes some characters on. -/
def skip (s : Scan) (n : Nat) : Scan := { s with place := s.place.skip n }

/-! ## 2. Layout -/

/-- Starts a list or a map at a column, unless one stands there already. -/
def roll (s : Scan) (column before : Nat) (t : Token) : Scan :=
  if s.inside || column ≤ s.indent then s
  else { s with indent := column, outer := s.indent :: s.outer }.insert before t

/-- The number of lists and maps that end at a column, and the columns that remain. -/
def closing (column indent : Int) : List Int → Nat × Int × List Int
  | [] => (0, indent, [])
  | o :: outer =>
    if column < indent then
      let (n, kept) := closing column o outer
      (n + 1, kept)
    else (0, indent, o :: outer)

/-- Ends the lists and maps to the right of a column. -/
def unroll (s : Scan) (column : Int) : Scan :=
  if s.inside then s
  else
    let (n, indent, outer) := closing column s.indent s.outer
    { s with
      indent := indent, outer := outer
      tokens := List.replicate n .blockEnd ++ s.tokens, count := s.count + n }

/-! ## 3. Candidates -/

/-- Gives a candidate up; the document is refused if a key had to stand there. -/
def giveUp : Option Candidate → Option (Option Candidate)
  | some c => if c.required then none else some none
  | none => some none

/-- Gives the candidate on this level up. -/
def dropCandidate (s : Scan) : Option Scan := do
  return { s with candidate := ← giveUp s.candidate }

/-- Keeps this place as a candidate if a key may start here. It must start here if the innermost map
    by layout stands in this column. -/
def saveCandidate (s : Scan) : Option Scan := do
  if !s.keyAllowed then return s
  let s ← s.dropCandidate
  let required := !s.inside && s.indent == s.place.column
  return { s with candidate := some ⟨s.count, s.place.line, s.place.column, required⟩ }

/-- A candidate if it can still be a key. -/
def refresh (p : Place) (c : Option Candidate) : Option (Option Candidate) :=
  if c.all (·.isFresh p) then some c else giveUp c

/-- Gives up the candidates that can no longer be keys. -/
def refreshAll (s : Scan) : Option Scan := do
  return { s with
    candidate := ← refresh s.place s.candidate
    waiting := ← s.waiting.mapM (refresh s.place) }

/-! ## 4. Gaps -/

/-- Skips blanks, comments and breaks. Gives the place and whether a key may start there. Outside
    brackets, a tab is no blank where a key may start, and a key may start on a new line. A mark of
    the byte order may start a line; it takes up a column. -/
def skipGap (inside : Bool) (keyAllowed comment : Bool) (line column : Nat) :
    List Char → Place × Bool
  | [] => (⟨[], line, column⟩, keyAllowed)
  | c :: rest =>
    if isBreak c then skipGap inside (keyAllowed || !inside) false (line + 1) 0 rest
    else if comment || c == '#' then skipGap inside keyAllowed true line (column + 1) rest
    else if column = 0 ∧ c = '\uFEFF' then skipGap inside keyAllowed false line 1 rest
    else if c = ' ' ∨ (c = '\t' ∧ (inside ∨ !keyAllowed)) then
      skipGap inside keyAllowed false line (column + 1) rest
    else (⟨c :: rest, line, column⟩, keyAllowed)

/-- Goes to the next token: skips the gap and gives up what the gap ends. -/
def toToken (s : Scan) : Option Scan := do
  let p := s.place
  let (place, keyAllowed) := skipGap s.inside s.keyAllowed false p.line p.column p.rest
  let s ← { s with place := place, keyAllowed := keyAllowed }.refreshAll
  return s.unroll s.place.column

/-! ## 5. Tokens -/

/-- A mark between documents. -/
def takeMark (s : Scan) (t : Token) : Option Scan := do
  let s ← (s.unroll (-1)).dropCandidate
  return ({ s with keyAllowed := false }.push t).skip 3

/-- A directive. -/
def takeDirective (s : Scan) : Option Scan := do
  let s ← (s.unroll (-1)).dropCandidate
  let (d, rest) ← readDirective (s.place.rest.drop 1)
  return { s with keyAllowed := false, place := (s.place.moveTo rest).nextLine }.push (.directive d)

/-- An opening bracket. -/
def takeOpen (s : Scan) (t : Token) : Option Scan := do
  let s ← s.saveCandidate
  return ({ s with
    candidate := none, waiting := s.candidate :: s.waiting, keyAllowed := true }.push t).skip 1

/-- A closing bracket. -/
def takeClose (s : Scan) (t : Token) : Option Scan := do
  let s ← s.dropCandidate
  let s := match s.waiting with
    | c :: waiting => { s with candidate := c, waiting := waiting }
    | [] => s
  return ({ s with keyAllowed := false }.push t).skip 1

/-- A comma. -/
def takeComma (s : Scan) : Option Scan := do
  let s ← s.dropCandidate
  return ({ s with keyAllowed := true }.push .comma).skip 1

/-- The dash of an item. Inside brackets it is a token that no grammar takes. -/
def takeItem (s : Scan) : Option Scan := do
  if !s.inside && !s.keyAllowed then none
  let s ← (s.roll s.place.column s.count .listStart).dropCandidate
  return ({ s with keyAllowed := true }.push .item).skip 1

/-- The question mark in front of a key. -/
def takeKey (s : Scan) : Option Scan := do
  if !s.inside && !s.keyAllowed then none
  let s ← (s.roll s.place.column s.count .mapStart).dropCandidate
  return ({ s with keyAllowed := !s.inside }.push .key).skip 1

/-- The colon in front of a value. If there is a candidate it becomes a key. -/
def takeValue (s : Scan) : Option Scan :=
  match s.candidate with
  | some c =>
    let s := (s.insert c.before .key).roll c.column c.before .mapStart
    some (({ s with candidate := none, keyAllowed := false }.push .value).skip 1)
  | none =>
    if !s.inside && !s.keyAllowed then none
    else
      let s := s.roll s.place.column s.count .mapStart
      some (({ s with keyAllowed := !s.inside }.push .value).skip 1)

/-- An anchor or an alias. -/
def takeName (s : Scan) (t : String → Token) : Option Scan := do
  let s ← s.saveCandidate
  let (name, rest) ← readName (s.place.rest.drop 1)
  return { s with keyAllowed := false, place := s.place.moveTo rest }.push (t name)

/-- A tag. -/
def takeTag (s : Scan) : Option Scan := do
  let s ← s.saveCandidate
  let (tag, rest) ← readTag s.inside (s.place.rest.drop 1)
  return { s with keyAllowed := false, place := s.place.moveTo rest }.push (.tag tag)

/-- A block of lines. A key may start behind it. -/
def takeBlock (s : Scan) (folds : Bool) : Option Scan := do
  let s ← s.dropCandidate
  let (text, place) ← readBlock folds s.indent (s.place.skip 1)
  return { s with keyAllowed := true, place := place }.push (.scalar false text)

/-- A text between quotes. -/
def takeQuoted (s : Scan) (double : Bool) : Option Scan := do
  let s ← s.saveCandidate
  let p := s.place.skip 1
  let (text, place) ←
    if double then readDouble {} p.line p.column p.rest else readSingle {} p.line p.column p.rest
  return { s with keyAllowed := false, place := place }.push (.scalar false text)

/-- A plain text. A key may start behind it if its line has ended. -/
def takePlain (s : Scan) : Option Scan := do
  let s ← s.saveCandidate
  let p := s.place
  let (f, place) ← readPlain s.inside (s.indent + 1) {} p.line p.column p.rest
  return { s with keyAllowed := f.broken, place := place }.push (.scalar true f.trimmed)

/-- The token at a character; `rest` is what follows it. -/
def takeToken (s : Scan) (c : Char) (rest : List Char) : Option Scan :=
  let ends := s.inside || blankAhead rest
  if s.place.column = 0 ∧ c = '%' then s.takeDirective
  else if s.place.atMark then s.takeMark (if c = '-' then .documentStart else .documentEnd)
  else
    match c with
    | '[' => s.takeOpen .openList
    | '\x7b' => s.takeOpen .openMap
    | ']' => s.takeClose .closeList
    | '\x7d' => s.takeClose .closeMap
    | ',' => s.takeComma
    | '-' => if blankAhead rest then s.takeItem else s.takePlain
    | '?' => if ends then s.takeKey else s.takePlain
    | ':' => if ends then s.takeValue else s.takePlain
    | '*' => s.takeName .alias
    | '&' => s.takeName .anchor
    | '!' => s.takeTag
    | '|' => if s.inside then none else s.takeBlock false
    | '>' => if s.inside then none else s.takeBlock true
    | '\'' => s.takeQuoted false
    | '"' => s.takeQuoted true
    | _ => if isIndicator c || isBlank c then none else s.takePlain

/-- The end of the document. -/
def finish (s : Scan) : Option (List Token) := do
  let s ← (s.unroll (-1)).dropCandidate
  return s.tokens.reverse

/-- Reads at most `fuel` tokens; `Token.all` gives enough for all of them. -/
def allFuel : Nat → Scan → Option (List Token)
  | 0, _ => none
  | fuel + 1, s => do
    let s ← s.toToken
    match s.place.rest with
    | [] => s.finish
    | c :: rest => allFuel fuel (← s.takeToken c rest)

end Scan

/-- The tokens of a document whose ends of lines have one form. Each token takes a character at
    least. -/
def Token.all? (cs : List Char) : Option (List Token) :=
  Scan.allFuel (cs.length + 1) { place := ⟨cs, 0, 0⟩ }

end QirProfile.Yaml
