import QirProfile.Assembly.ReadError
import QirProfile.Assembly.Token
import QirProfile.Assembly.Tree

/-!
# Reading along a list of tokens

A reader takes tokens from the head of what is left and remembers the line of the last one it took,
which is the line its errors report. `repeatStep` runs one reader again and again; since a step that
asks for another one has taken a token, the number of tokens bounds the number of steps.
-/

namespace QirProfile.Assembly

/-- What is left to read, and the line of the token taken last. -/
structure Cursor where
  rest : List Lexeme
  line : Nat := 1

/-- A reader of tokens. -/
abbrev Reader := StateT Cursor (Except ReadError)

namespace Reader

/-! ## 1. Looking and taking -/

/-- The next token, if there is one. -/
def peek : Reader (Option Token) := do
  return (← get).rest.head?.map (·.token)

/-- The token after the next one, if there is one. -/
def peekSecond : Reader (Option Token) := do
  return (← get).rest[1]?.map (·.token)

/-- Takes the next token if there is one. -/
def advance : Reader Unit := fun c =>
  match c.rest with
  | [] => .ok ((), c)
  | x :: rest => .ok ((), ⟨rest, x.line⟩)

/-- Takes the next token; `context` says what is missing at the end of the text. -/
def next (context : String) : Reader Token := fun c =>
  match c.rest with
  | [] => .error (.unexpectedEnd context)
  | x :: rest => .ok (x.token, ⟨rest, x.line⟩)

/-- Refuses a token in the line of the token taken last. -/
def unexpected {α : Type} (expected : String) (found : Token) : Reader α := do
  throw (.unexpectedToken (← get).line expected found.text)

/-! ## 2. Marks and words -/

/-- Whether the next token is this one. -/
def at? (t : Token) : Reader Bool := do
  return (← peek) == some t

/-- Whether the next token is this word. -/
def atWord? (word : String) : Reader Bool :=
  at? (.keyword word)

/-- Takes the next token if it is this one, and says whether it did. -/
def accept (t : Token) : Reader Bool := do
  if ← at? t then
    advance
    return true
  return false

/-- Takes the next token if it is this word, and says whether it did. -/
def acceptWord (word : String) : Reader Bool :=
  accept (.keyword word)

/-- Takes a token that must be this one. -/
def expect (t : Token) : Reader Unit := do
  let found ← next ("expected " ++ t.text)
  if found ≠ t then unexpected t.text found

/-- Takes a token that must be this word. -/
def expectWord (word : String) : Reader Unit := do
  let quoted := "'" ++ word ++ "'"
  let found ← next ("expected " ++ quoted)
  if !found.isKeyword word then unexpected quoted found

/-! ## 3. Repetition -/

/-- The outcome of a step: another one from this state, or the end. -/
inductive Step (σ β : Type) where
  | again (s : σ)
  | done (b : β)

/-- At most `fuel` steps. -/
def repeatFuel {σ β : Type} (step : σ → Reader (Step σ β)) : Nat → σ → Reader β
  | 0, _ => throw (.unexpectedEnd "")
  | fuel + 1, s => do
    match ← step s with
    | .again s => repeatFuel step fuel s
    | .done b => return b

/-- Steps until one ends. -/
def repeatStep {σ β : Type} (step : σ → Reader (Step σ β)) (s : σ) : Reader β := do
  repeatFuel step ((← get).rest.length + 1) s

/-- One item, and another one behind each comma. -/
def commaSeparated {α : Type} (item : Reader α) : Reader (List α) :=
  repeatStep (fun items => do
    let items := items ++ [← item]
    if ← accept .comma then return .again items else return .done items) []

/-- Items between commas up to a closing mark that is taken too; there may be none. -/
def commaList {α : Type} (close : Token) (item : Reader α) : Reader (List α) := do
  if ← accept close then return []
  let items ← commaSeparated item
  expect close
  return items

/-! ## 4. Literals and groups -/

/-- A number of 32 bits. -/
def number32 : Reader Nat := do
  match ← next "expected integer" with
  | .integer v =>
    if 0 ≤ v ∧ v < span 32 then return v.toNat
    else throw (.integerOutOfRange (← get).line v)
  | other => unexpected "integer" other

/-- A quoted text. -/
def string : Reader String := do
  match ← next "expected string" with
  | .string s => return s
  | other => unexpected "string" other

/-- How the nesting depth changes with a token. -/
def depthAfter (depth : Nat) : Token → Nat
  | .leftParen | .leftBrace | .leftBracket | .less => depth + 1
  | .rightParen | .rightBrace | .rightBracket | .greater => depth - 1
  | _ => depth

/-- Passes over a group in brackets of any kind; the next token opens it. -/
def skipGroup : Reader Unit :=
  repeatStep (fun depth => do
    let depth := depthAfter depth (← next "unterminated group")
    if depth = 0 then return .done () else return .again depth) 0

/-- Passes over a group in parentheses if one is next. -/
def skipParens : Reader Unit := do
  if ← at? .leftParen then skipGroup

/-- Passes over a metadata value, such as `!12`, `!{…}`, `!"text"` or `!DILocation(…)`. -/
def skipMetadata : Reader Unit := do
  let _ ← acceptWord "distinct"
  match ← next "expected metadata" with
  | .metadataId _ => return
  | .metadataName _ => skipParens
  | .exclaim =>
    match ← peek with
    | some .leftBrace => skipGroup
    | some (.string _) => advance
    | _ => return
  | other => unexpected "metadata" other

/-- A local symbol. -/
def localSymbol : Reader Assembly.Symbol := do
  match ← next "expected local name" with
  | .localName name => return .named name
  | .localId n => return .numbered n
  | other => unexpected "local name" other

/-- A global symbol. -/
def globalSymbol : Reader Assembly.Symbol := do
  match ← next "expected global name" with
  | .globalName name => return .named name
  | .globalId n => return .numbered n
  | other => unexpected "global name" other

/-- A branch target. -/
def label : Reader Assembly.Symbol := do
  expectWord "label"
  localSymbol

end Reader

end QirProfile.Assembly
