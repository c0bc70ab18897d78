import QirProfile.Assembly.Terms

/-!
# Reading instructions

An instruction is an optional result symbol, the word of its operation, the operands, and trailing
alignments and metadata behind commas.
-/

namespace QirProfile.Assembly.Reader

/-! ## 1. Branches -/

/-- The targets of a `br`. -/
def branch : Reader Operation := do
  if ← atWord? "label" then return .br (← label)
  let cond ← typedTerm
  expect .comma
  let ifTrue ← label
  expect .comma
  let ifFalse ← label
  return .condBr cond ifTrue ifFalse

/-- The condition, the default and the cases of a `switch`. -/
def switch : Reader Operation := do
  let cond ← typedTerm
  expect .comma
  let default ← label
  expect .leftBracket
  let cases ← repeatStep (fun cases => do
    if ← accept .rightBracket then return .done cases
    let value ← typedTerm
    expect .comma
    let dest ← label
    return .again (cases ++ [(value, dest)])) []
  return .switch cond default cases

/-! ## 2. Calls -/

/-- The result type of a call. Calling conventions and attributes before it are passed over, and of
    a whole function type only the result counts. -/
def callResult : Reader Ty := do
  repeatStep (fun _ => do
    match ← peek with
    | some (.keyword word) =>
      if isTypeWord word then return .done ()
      advance
      skipParens
      return .again ()
    | _ => return .done ()) ()
  match ← type with
  | .func ret _ _ => return ret
  | ty => return ty

/-- The arguments of a call. Attribute groups behind the list are passed over, except behind an
    empty one. -/
def callArguments : Reader (List TypedTerm) := do
  expect .leftParen
  if ← accept .rightParen then return []
  let args ← commaSeparated typedTerm
  expect .rightParen
  repeatStep (fun _ => do
    match ← peek with
    | some (.groupId _) =>
      advance
      return .again ()
    | _ => return .done ()) ()
  return args

/-- A call behind its word. -/
def call (marker : TailMarker) : Reader Operation := do
  let ret ← callResult
  let callee ← term
  return .call marker ret callee (← callArguments)

/-- A call behind the word of its marker. -/
def markedCall (marker : TailMarker) : Reader Operation := do
  expectWord "call"
  call marker

/-- An invoke behind its word. -/
def invoke : Reader Operation := do
  let ret ← callResult
  let callee ← term
  let args ← callArguments
  expectWord "to"
  let normal ← label
  expectWord "unwind"
  return .invoke ret callee args normal (← label)

/-! ## 3. The other operations -/

/-- Whether a word is a flag of an arithmetic operation. -/
def isOperatorFlag (word : String) : Bool :=
  ["nuw", "nsw", "exact", "disjoint", "fast", "nnan", "ninf", "nsz", "arcp", "contract", "afn",
    "reassoc"].contains word

/-- Passes over the flags of an arithmetic operation. -/
def skipOperatorFlags : Reader Unit :=
  repeatStep (fun _ => do
    match ← peek with
    | some (.keyword word) =>
      if isOperatorFlag word then
        advance
        return .again ()
      return .done ()
    | _ => return .done ()) ()

/-- A comparison. -/
def comparison : Reader Predicate := do
  match ← next "expected predicate" with
  | .keyword word =>
    match Predicate.ofName? word with
    | some pred => return pred
    | none => unexpected "integer predicate" (.keyword word)
  | other => unexpected "integer predicate" other

/-- Whether what follows the comma at hand is an alignment or metadata. -/
def atTrailing? : Reader Bool := do
  match ← peekSecond with
  | some (.metadataName _) => return true
  | some t => return t.isKeyword "align"
  | none => return false

/-- The indices of an address computation. -/
def gepIndices : Reader (List TypedTerm) :=
  repeatStep (fun items => do
    if (← at? .comma) && !(← atTrailing?) then
      advance
      return .again (items ++ [← typedTerm])
    return .done items) []

/-- The incoming values of a phi and their blocks. -/
def incoming : Reader (List (Term × Assembly.Symbol)) :=
  repeatStep (fun items => do
    expect .leftBracket
    let value ← term
    expect .comma
    let block ← localSymbol
    expect .rightBracket
    let items := items ++ [(value, block)]
    if (← at? .comma) && (← peekSecond) = some .leftBracket then
      advance
      return .again items
    return .done items) []

/-- The operands of an operation, behind its word that stood in the given line. -/
def operation (word : String) (line : Nat) : Reader Operation := do
  match word with
  | "ret" =>
    if ← acceptWord "void" then return .ret none
    return .ret (some (← typedTerm))
  | "br" => branch
  | "switch" => switch
  | "unreachable" => return .unreachable
  | "call" => call .none
  | "tail" => markedCall .tail
  | "musttail" => markedCall .mustTail
  | "notail" => markedCall .noTail
  | "invoke" => invoke
  | "icmp" =>
    let pred ← comparison
    let ty ← type
    let lhs ← term
    expect .comma
    return .icmp pred ty lhs (← term)
  | "load" =>
    let _ ← acceptWord "volatile"
    let ty ← type
    expect .comma
    return .load ty (← typedTerm) none
  | "store" =>
    let _ ← acceptWord "volatile"
    let value ← typedTerm
    expect .comma
    return .store value (← typedTerm) none
  | "alloca" => return .alloca (← type) none
  | "getelementptr" =>
    let inbounds ← acceptWord "inbounds"
    let source ← type
    expect .comma
    let base ← typedTerm
    return .gep inbounds source base (← gepIndices)
  | "select" =>
    let cond ← typedTerm
    expect .comma
    let ifTrue ← typedTerm
    expect .comma
    return .select cond ifTrue (← typedTerm)
  | "phi" =>
    let ty ← type
    return .phi ty (← incoming)
  | _ =>
    match BinaryOp.ofName? word, CastOp.ofName? word with
    | some op, _ =>
      skipOperatorFlags
      let ty ← type
      let lhs ← term
      expect .comma
      return .binary op ty lhs (← term)
    | none, some op =>
      let value ← typedTerm
      expectWord "to"
      return .cast op value (← type)
    | none, none => throw (.unknownInstruction word line)

/-! ## 4. Instructions -/

/-- Alignments and metadata behind an operation. -/
def trailing (op : Operation) : Reader Operation :=
  repeatStep (fun op => do
    if (← at? .comma) && (← atTrailing?) then
      advance
      if ← acceptWord "align" then return .again (op.withAlign (← number32))
      advance
      skipMetadata
      return .again op
    return .done op) op

/-- The symbol that an instruction defines. -/
def result? : Reader (Option Assembly.Symbol) := do
  match ← peek, ← peekSecond with
  | some (.localName _), some .equals | some (.localId _), some .equals =>
    let symbol ← localSymbol
    expect .equals
    return some symbol
  | _, _ => return none

/-- One instruction. -/
def instruction : Reader InstrTree := do
  let result ← result?
  match ← next "expected instruction" with
  | .keyword word =>
    let line := (← get).line
    let op ← operation word line
    return ⟨result, ← trailing op, line⟩
  | other => unexpected "instruction" other

end QirProfile.Assembly.Reader
