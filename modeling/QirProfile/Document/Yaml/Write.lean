import QirProfile.Document.Yaml.Character
import QirProfile.Document.Yaml.Plain

/-!
# Writing YAML

Maps are indented by two, the items of a list stand at the indent of its key, and empty ones are
written in brackets. A text is written plain where it reads back as itself, between single quotes
where it would read as something else, between double quotes where it has characters that do not
show, and as a block where it has several lines.
-/

namespace QirProfile.Yaml

/-! ## 1. Which style a text takes -/

/-- The neighbours in a text. -/
def pairs (cs : List Char) : List (Char × Char) := cs.zip (cs.drop 1)

/-- Whether the first word starts with a mark of the document. -/
def startsMarked : List Char → Bool
  | '-' :: '-' :: '-' :: _ | '.' :: '.' :: '.' :: _ => true
  | c :: rest =>
    isIndicator c ||
      (['?', ':', '-'].contains c && rest.head?.all isBlankOrBreak)
  | [] => false

/-- Whether a colon or a comment mark inside would end the text. -/
def hasMarks (cs : List Char) : Bool :=
  (pairs cs).any (fun (c, d) => (c == ':' && isBlankOrBreak d) || (isBlankOrBreak c && d == '#')) ||
    (1 < cs.length && cs.getLast? == some ':')

/-- Whether a blank or a break stands at an end. -/
def hasLooseEnds (cs : List Char) : Bool :=
  let loose := fun c => c == ' ' || isBreak c
  cs.head?.any loose || cs.getLast?.any loose

/-- Whether a blank precedes a break. -/
def hasSpaceBreak (cs : List Char) : Bool :=
  (pairs cs).any fun (c, d) => c == ' ' && isBreak d

/-- Whether a blank follows a break. -/
def hasBreakSpace (cs : List Char) : Bool :=
  (pairs cs).any fun (c, d) => isBreak c && d == ' '

/-- How a text is written. -/
inductive Style where
  | plain
  | single
  | double
  | literal
  deriving DecidableEq

/-- Whether quotes alone will do: every character shows, and no blank stands beside a break. -/
def fitsSingle (cs : List Char) : Bool :=
  cs.all isPrintable && !hasSpaceBreak cs && !hasBreakSpace cs

/-- Whether a text of several lines can be written as a block. -/
def fitsBlock (cs : List Char) : Bool :=
  cs.all isPrintable && !hasSpaceBreak cs && cs.getLast? != some ' '

/-- Whether a text can stand without quotes. -/
def fitsPlain (cs : List Char) : Bool :=
  !startsMarked cs && !hasMarks cs && !hasLooseEnds cs && !cs.any isBreak && fitsSingle cs

/-- The style of a text. -/
def styleOf (s : String) : Style :=
  let cs := s.toList
  if cs.contains '\n' then
    if fitsBlock cs then .literal else .double
  else if isPlainText s && fitsPlain cs then .plain
  else if fitsSingle cs then .single
  else .double

/-! ## 2. Texts -/

/-- A character between double quotes. -/
def escape (c : Char) : List Char :=
  match c with
  | '\x00' => ['\\', '0']
  | '\x07' => ['\\', 'a']
  | '\x08' => ['\\', 'b']
  | '\t' => ['\\', 't']
  | '\n' => ['\\', 'n']
  | '\x0b' => ['\\', 'v']
  | '\x0c' => ['\\', 'f']
  | '\r' => ['\\', 'r']
  | '\x1b' => ['\\', 'e']
  | '"' => ['\\', '"']
  | '\\' => ['\\', '\\']
  | '\x85' => ['\\', 'N']
  | '\u2028' => ['\\', 'L']
  | '\u2029' => ['\\', 'P']
  | c =>
    let n := c.toNat
    if isPrintable c then [c]
    else if n ≤ 0xFF then '\\' :: 'x' :: Text.hexFixed 2 n
    else if n ≤ 0xFFFF then '\\' :: 'u' :: Text.hexFixed 4 n
    else '\\' :: 'U' :: Text.hexFixed 8 n

/-- A line: its characters and the break that ends it. -/
structure Line where
  text : List Char
  ending : Char := '\n'

/-- The lines of some characters, of which each break ends one. `open_` holds the line under way,
    its last character first. -/
def splitLines (open_ : List Char) : List Char → List Line
  | [] => if open_.isEmpty then [] else [⟨open_.reverse, '\n'⟩]
  | c :: rest =>
    if isBreak c then ⟨open_.reverse, c⟩ :: splitLines [] rest else splitLines (c :: open_) rest

/-- A text between double quotes. -/
def doubleQuoted (s : String) : List Char := '"' :: s.toList.flatMap escape ++ ['"']

/-- A text between single quotes, which are doubled inside. -/
def singleQuoted (s : String) : List Char :=
  '\'' :: (s.toList.flatMap fun c => if c = '\'' then ['\'', '\''] else [c]) ++ ['\'']

/-- The head of a block: an indent where the first line starts with a blank or is empty, and what
    becomes of the breaks at the end. -/
def blockHead (cs : List Char) : List Char :=
  let indent := if cs.head?.any fun c => c == ' ' || isBreak c then ['2'] else []
  let chomp := match cs.reverse with
    | [] => ['-']
    | [c] => if isBreak c then ['+'] else ['-']
    | c :: d :: _ => if isBreak c then (if isBreak d then ['+'] else []) else ['-']
  '|' :: indent ++ chomp

/-- The lines of a text; the first one stands after its key or dash. -/
def textLines (s : String) : List Line :=
  match styleOf s with
  | .plain => [⟨s.toList, '\n'⟩]
  | .single => splitLines [] (singleQuoted s)
  | .double => [⟨doubleQuoted s, '\n'⟩]
  | .literal => ⟨blockHead s.toList, '\n'⟩ :: splitLines [] s.toList

/-- A key, which stands on one line. -/
def writeKey (s : String) : List Char :=
  match styleOf s with
  | .plain => s.toList
  | .single => if s.toList.any isBreak then doubleQuoted s else singleQuoted s
  | _ => doubleQuoted s

/-! ## 3. Documents -/

/-- Lines moved two to the right; an empty line stays empty. -/
def indented (ls : List Line) : List Line :=
  ls.map fun l => if l.text.isEmpty then l else { l with text := ' ' :: ' ' :: l.text }

/-- Puts some characters in front of the first line. -/
def inFront (cs : List Char) : List Line → List Line
  | [] => [⟨cs, '\n'⟩]
  | l :: rest => { l with text := cs ++ l.text } :: rest

/-- Lines behind a mark, which the first of them shares. -/
def behind (mark : List Char) (ls : List Line) : List Line :=
  inFront mark (ls.take 1) ++ indented (ls.drop 1)

mutual

/-- The lines of a value. -/
def lines : Datum → List Line
  | .null => [⟨"null".toList, '\n'⟩]
  | .bool b => [⟨(toString b).toList, '\n'⟩]
  | .int n => [⟨(toString n).toList, '\n'⟩]
  | .float bits => [⟨(Binary64.general bits).toList, '\n'⟩]
  | .text s => textLines s
  | .list [] => [⟨['[', ']'], '\n'⟩]
  | .list (d :: ds) => itemsLines (d :: ds)
  | .map [] => [⟨['\x7b', '\x7d'], '\n'⟩]
  | .map (e :: es) => entriesLines (e :: es)

/-- The lines of the items of a list. -/
def itemsLines : List Datum → List Line
  | [] => []
  | d :: ds => behind ['-', ' '] (lines d) ++ itemsLines ds

/-- The lines of the entries of a map. -/
def entriesLines : List (String × Datum) → List Line
  | [] => []
  | (k, d) :: rest =>
    let key := writeKey k ++ [':']
    let here := match d with
      | .list (_ :: _) => ⟨key, '\n'⟩ :: lines d
      | .map (_ :: _) => ⟨key, '\n'⟩ :: indented (lines d)
      | _ => behind (key ++ [' ']) (lines d)
    here ++ entriesLines rest

end

/-- The text of a document. -/
def write (d : Datum) : String :=
  String.ofList ((lines d).flatMap fun l => l.text ++ [l.ending])

end QirProfile.Yaml
