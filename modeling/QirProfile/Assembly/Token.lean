import QirProfile.Binary64
import QirProfile.Text.Quoted

/-!
# Tokens of program text

The tokens, and how messages write them. A name is held as it is meant, without its sigil, quotes
and escapes.
-/

namespace QirProfile.Assembly

/-- A token of program text. -/
inductive Token where
  | localName (name : String)
  | localId (n : Nat)
  | globalName (name : String)
  | globalId (n : Nat)
  | groupId (n : Nat)
  | metadataName (name : String)
  | metadataId (n : Nat)
  | exclaim
  | labelName (name : String)
  | labelId (n : Nat)
  | intType (bits : Nat)
  | integer (value : Int)
  | decimal (bits : UInt64)
  | hexBits (bits : UInt64)
  | string (text : String)
  | bytes (data : List UInt8)
  | keyword (word : String)
  | equals | comma | leftParen | rightParen | leftBracket | rightBracket
  | leftBrace | rightBrace | less | greater | star | ellipsis
  deriving DecidableEq, Inhabited

namespace Token

/-- How messages write a token. -/
def text : Token → String
  | localName s => "%" ++ s
  | localId n => "%" ++ toString n
  | globalName s => "@" ++ s
  | globalId n => "@" ++ toString n
  | groupId n => "#" ++ toString n
  | metadataName s => "!" ++ s
  | metadataId n => "!" ++ toString n
  | exclaim => "!"
  | labelName s => s ++ ":"
  | labelId n => toString n ++ ":"
  | intType bits => "i" ++ toString bits
  | integer v => toString v
  | decimal bits => Binary64.positional bits
  | hexBits bits => Binary64.hexadecimal bits
  | string s => "\"" ++ s ++ "\""
  | bytes data => "c\"" ++ String.ofList (Text.decodeLossy data) ++ "\""
  | keyword word => word
  | equals => "="
  | comma => ","
  | leftParen => "("
  | rightParen => ")"
  | leftBracket => "["
  | rightBracket => "]"
  | leftBrace => "\x7b"
  | rightBrace => "\x7d"
  | less => "<"
  | greater => ">"
  | star => "*"
  | ellipsis => "..."

/-- Whether the token is this word. -/
def isKeyword (t : Token) (word : String) : Bool :=
  match t with
  | keyword w => w == word
  | _ => false

end Token

/-- A token and the line it starts on. -/
structure Lexeme where
  token : Token
  line : Nat
  deriving DecidableEq

end QirProfile.Assembly
