import QirProfile.Assembly.Types

/-!
# Reading values

Values nest like types do: an aggregate or a constant expression holds typed values, read by a
reader of smaller depth.
-/

namespace QirProfile.Assembly.Reader

/-- A type and a value of it; parameter attributes may stand between them. -/
def typed (value : Reader Term) : Reader TypedTerm := do
  let ty ← type
  skipParamAttributes
  return .mk ty (← value)

/-- Further typed values, each behind a comma. -/
def moreTyped (value : Reader Term) : Reader (List TypedTerm) :=
  repeatStep (fun items => do
    if ← accept .comma then return .again (items ++ [← typed value]) else return .done items) []

/-- A constant that starts with a word, behind that word. -/
def wordConstant (value : Reader Term) (word : String) : Reader Term := do
  match word with
  | "true" => return .bool true
  | "false" => return .bool false
  | "null" => return .null
  | "undef" | "poison" => return .undef
  | "zeroinitializer" => return .zero
  | "getelementptr" =>
    let inbounds ← acceptWord "inbounds"
    expect .leftParen
    let source ← type
    expect .comma
    let base ← typed value
    let indices ← moreTyped value
    expect .rightParen
    return .gep inbounds source base indices
  | _ =>
    match CastOp.ofName? word with
    | some op =>
      expect .leftParen
      let operand ← typed value
      expectWord "to"
      let target ← type
      expect .rightParen
      return .cast op operand target
    | none => unexpected "constant" (.keyword word)

/-- A value nested less deeply than `depth`. -/
def termWithin : Nat → Reader Term
  | 0 => throw (.unexpectedEnd "")
  | depth + 1 => do
    match ← next "expected value" with
    | .localName name => return .local (.named name)
    | .localId n => return .local (.numbered n)
    | .globalName name => return .global (.named name)
    | .globalId n => return .global (.numbered n)
    | .integer v => return .int v
    | .decimal bits | .hexBits bits => return .float bits
    | .bytes data => return .bytes data
    | .leftBracket => return .array (← commaList .rightBracket (typed (termWithin depth)))
    | .leftBrace => return .struct (← commaList .rightBrace (typed (termWithin depth)))
    | .less =>
      expect .leftBrace
      let fields ← commaList .rightBrace (typed (termWithin depth))
      expect .greater
      return .struct fields
    | .keyword word => wordConstant (termWithin depth) word
    | other => unexpected "value" other

/-- A value without its type. -/
def term : Reader Term := do
  termWithin ((← get).rest.length + 1)

/-- A type and a value of it. -/
def typedTerm : Reader TypedTerm :=
  typed term

/-- Whether the next token can start a value. A global symbol before an equals sign starts a
    definition instead. -/
def atTerm? : Reader Bool := do
  match ← peek with
  | some (.integer _) | some (.decimal _) | some (.hexBits _) | some (.bytes _)
  | some .leftBracket | some .leftBrace | some .less
  | some (.localName _) | some (.localId _) => return true
  | some (.globalName _) | some (.globalId _) => return (← peekSecond) ≠ some .equals
  | some (.keyword word) => return isValueWord word
  | _ => return false

end QirProfile.Assembly.Reader
