import QirProfile.Assembly.ReadError
import QirProfile.Assembly.Token

/-!
# From characters to tokens

The longest token at the head of the text wins, and a run of word characters is not split: a run
that is neither a word, a number, a label nor three dots is refused as a whole. Only a number with
a point may end in front of the bare mark of an exponent. A quote that is never closed is refused up
to the end of the text. Numbers and handles that do not fit their type are refused with all their
digits.

`scan` gives the piece at the head of a text, `tokens` all tokens with their lines.
-/

namespace QirProfile.Assembly

open Text

/-! ## 1. Numbers -/

/-- The number that decimal digits write. -/
def digitsValue (ds : List Char) : Nat :=
  ds.foldl (fun n c => 10 * n + (c.toNat - 48)) 0

/-- A number of 32 bits. -/
def fits32? (n : Nat) : Option Nat :=
  if n < span 32 then some n else none

/-- An integer literal of 128 bits. -/
def fits128? (n : Int) : Option Int :=
  if -(span 127 : Int) ≤ n ∧ n < span 127 then some n else none

/-- The digits at the head of a text, and what follows them. -/
def takeDigits (cs : List Char) : List Char × List Char :=
  cs.span Char.isDigit

/-- An exponent: the mark, an optional sign and digits. Gives the characters, the value and what
    follows; nothing where there is none. -/
def takeExponent? : List Char → Option (List Char × Int × List Char)
  | mark :: rest =>
    if mark = 'e' ∨ mark = 'E' then
      let (sign, body) := match rest with
        | '-' :: r => (['-'], r)
        | '+' :: r => (['+'], r)
        | r => ([], r)
      match takeDigits body with
      | ([], _) => none
      | (ds, after) =>
        let n : Int := digitsValue ds
        some (mark :: sign ++ ds, if sign = ['-'] then -n else n, after)
    else none
  | [] => none

/-- A piece of text: the token its characters make, if they make one, and what follows. -/
structure Piece where
  token : Option Token
  text : List Char
  rest : List Char

/-- A decimal number with a point, after its sign and its whole digits; `rest` starts behind the
    point. -/
def scanDecimal (sign whole rest : List Char) : Piece :=
  let (places, after) := takeDigits rest
  let (mark, exponent, after) := (takeExponent? after).getD ([], 0, after)
  let bits := Binary64.ofDecimal (sign = ['-']) (digitsValue (whole ++ places))
    (exponent - places.length)
  ⟨some (.decimal bits), sign ++ whole ++ '.' :: places ++ mark, after⟩

/-- A text that starts with a digit. -/
def scanNumber (cs : List Char) : Piece :=
  match takeDigits cs with
  | (ds, ':' :: after) => ⟨(fits32? (digitsValue ds)).map .labelId, ds ++ [':'], after⟩
  | (ds, '.' :: after) => scanDecimal [] ds after
  | (ds, after) =>
    let plain : Piece := ⟨(fits128? (digitsValue ds)).map .integer, ds, after⟩
    match ds, after with
    | ['0'], 'x' :: body =>
      match body.span fun c => (hexValue? c).isSome with
      | ([], _) => plain
      | (hs, rest) =>
        let value := (hexNumber? hs).getD 0
        ⟨if value < span 64 then some (.hexBits (UInt64.ofNat value)) else none,
          '0' :: 'x' :: hs, rest⟩
    | _, _ => plain

/-! ## 2. Quotes -/

/-- The text up to the closing quote, and what follows the quote. -/
def takeQuoted? : List Char → Option (List Char × List Char)
  | [] => none
  | '"' :: rest => some ([], rest)
  | c :: rest => (takeQuoted? rest).map fun (inner, after) => (c :: inner, after)

/-- A text that starts with a quote; `cs` starts behind it. -/
def scanString (cs : List Char) : Piece :=
  match takeQuoted? cs with
  | none => ⟨none, '"' :: cs, []⟩
  | some (inner, ':' :: after) =>
    ⟨some (.labelName (unescape inner)), '"' :: inner ++ ['"', ':'], after⟩
  | some (inner, after) => ⟨some (.string (unescape inner)), '"' :: inner ++ ['"'], after⟩

/-! ## 3. Words -/

/-- What a bare word consists of. -/
def isKeywordChar (c : Char) : Bool :=
  c.isAlphanum || c == '_' || c == '.'

/-- Whether a run of word characters is a bare word. -/
def isKeywordRun : List Char → Bool
  | c :: cs => (c.isAlpha || c == '_') && cs.all isKeywordChar
  | [] => false

/-- Whether nothing but the mark of an exponent is left of a run. -/
def isBareMark : List Char → Bool
  | [c] => c == 'e' || c == 'E'
  | _ => false

/-- The token of a run of word characters that is no label; `after` is what follows it. -/
def scanRun (run after : List Char) : Piece :=
  if isKeywordRun run then
    match run, after with
    | ['c'], '"' :: body =>
      match takeQuoted? body with
      | some (inner, rest) =>
        ⟨some (.bytes (unescapeBytes (utf8 inner))), 'c' :: '"' :: inner ++ ['"'], rest⟩
      | none => ⟨none, 'c' :: '"' :: body, []⟩
    | 'i' :: d :: ds, _ =>
      if (d :: ds).all Char.isDigit then
        ⟨(fits32? (digitsValue (d :: ds))).map .intType, run, after⟩
      else ⟨some (.keyword (String.ofList run)), run, after⟩
    | _, _ => ⟨some (.keyword (String.ofList run)), run, after⟩
  else
    let refused : Piece := ⟨none, run, after⟩
    match run with
    | ['.', '.', '.'] => ⟨some .ellipsis, run, after⟩
    | '-' :: body =>
      match takeDigits body with
      | ([], _) => refused
      | (ds, []) => ⟨(fits128? (-(digitsValue ds : Int))).map .integer, run, after⟩
      | (ds, '.' :: places) =>
        -- A number may go on behind the run, with a plus sign in its exponent. It stops inside the
        -- run only in front of a bare mark that ends the run.
        let piece := scanDecimal ['-'] ds (places ++ after)
        if run.length ≤ piece.text.length ∨ isBareMark (takeDigits places).2 then piece else refused
      | _ => refused
    | _ => refused

/-- A text that starts with a word character. -/
def scanWord (cs : List Char) : Piece :=
  match cs.span isWordChar with
  | (run, ':' :: after) => ⟨some (.labelName (String.ofList run)), run ++ [':'], after⟩
  | (run, after) => scanRun run after

/-! ## 4. Sigils -/

/-- A name or number behind a sigil. Without either, `alone` says what the sigil is by itself. -/
def scanSigil (sigil : Char) (named : String → Token) (numbered : Nat → Token)
    (alone : Option Token) (cs : List Char) : Piece :=
  match cs with
  | c :: _ =>
    if isWordStart c then
      let (run, after) := cs.span isWordChar
      ⟨some (named (String.ofList run)), sigil :: run, after⟩
    else if c.isDigit then
      let (ds, after) := takeDigits cs
      ⟨(fits32? (digitsValue ds)).map numbered, sigil :: ds, after⟩
    else ⟨alone, [sigil], cs⟩
  | [] => ⟨alone, [sigil], []⟩

/-- A symbol behind `%` or `@`, where a quoted name may stand too. -/
def scanSymbol (sigil : Char) (named : String → Token) (numbered : Nat → Token) (cs : List Char) :
    Piece :=
  match cs with
  | '"' :: body =>
    match takeQuoted? body with
    | some (inner, after) =>
      ⟨some (named (unescape inner)), sigil :: '"' :: inner ++ ['"'], after⟩
    | none => ⟨none, sigil :: cs, []⟩
  | _ => scanSigil sigil named numbered none cs

/-- The number of an attribute group. -/
def scanGroup (cs : List Char) : Piece :=
  match takeDigits cs with
  | ([], _) => ⟨none, ['#'], cs⟩
  | (ds, after) => ⟨(fits32? (digitsValue ds)).map .groupId, '#' :: ds, after⟩

/-- A plus sign starts a number with a point, and nothing else. -/
def scanPlus (cs : List Char) : Piece :=
  match takeDigits cs with
  | ([], _) => ⟨none, ['+'], cs⟩
  | (ds, '.' :: after) => scanDecimal ['+'] ds after
  | (ds, after) => ⟨none, '+' :: ds, after⟩

/-! ## 5. The whole text -/

/-- The token of a punctuation mark. -/
def punctuation? : Char → Option Token
  | '=' => some .equals
  | ',' => some .comma
  | '(' => some .leftParen
  | ')' => some .rightParen
  | '[' => some .leftBracket
  | ']' => some .rightBracket
  | '{' => some .leftBrace
  | '}' => some .rightBrace
  | '<' => some .less
  | '>' => some .greater
  | '*' => some .star
  | _ => none

/-- The piece at the head of a text that starts with neither a blank nor a comment. -/
def scan (c : Char) (cs : List Char) : Piece :=
  match c with
  | '%' => scanSymbol '%' .localName .localId cs
  | '@' => scanSymbol '@' .globalName .globalId cs
  | '!' => scanSigil '!' .metadataName .metadataId (some .exclaim) cs
  | '#' => scanGroup cs
  | '"' => scanString cs
  | '+' => scanPlus cs
  | _ =>
    if c.isDigit then scanNumber (c :: cs)
    else if isWordStart c then scanWord (c :: cs)
    else ⟨punctuation? c, [c], cs⟩

/-- White space between tokens. -/
def isBlank (c : Char) : Bool :=
  c == ' ' || c == '\t' || c == '\r' || c == '\n'

/-- Reads at most `fuel` pieces; `tokens` gives enough for all of them. -/
def tokensFuel : Nat → Nat → List Char → Except ReadError (List Lexeme)
  | 0, _, _ => .ok []
  | _ + 1, _, [] => .ok []
  | fuel + 1, line, c :: cs =>
    if isBlank c then tokensFuel fuel (if c = '\n' then line + 1 else line) cs
    else if c = ';' then tokensFuel fuel line (cs.dropWhile (· ≠ '\n'))
    else
      let piece := scan c cs
      match piece.token with
      | none => .error (.invalidToken line (String.ofList piece.text))
      | some t => do
        let rest ← tokensFuel fuel (line + piece.text.count '\n') piece.rest
        return ⟨t, line⟩ :: rest

/-- The tokens of a text with their lines, or the first piece that makes no token. Each piece takes
    at least one character, so the number of characters bounds the number of pieces. -/
def tokens (source : String) : Except ReadError (List Lexeme) :=
  let cs := source.toList
  tokensFuel cs.length 1 cs

end QirProfile.Assembly
