import QirProfile.Assembly.Cursor

/-!
# Reading types

A type is a head, such as `i64`, `%Qubit` or `[3 x i8]`, and any number of suffixes: a star, an
address space, or the parameters of a function type. What is nested inside is read by a reader of
smaller depth, handed in as an argument; `type` starts with a depth that no text can exceed.
-/

namespace QirProfile.Assembly.Reader

/-! ## 1. Words -/

/-- The type that a word names. -/
def typeOfWord? : String → Option Ty
  | "void" => some .void
  | "half" => some .half
  | "float" => some .float
  | "double" => some .double
  | "label" => some .label
  | "metadata" => some .metadata
  | "ptr" => some (.ptr (.int 8))
  | _ => none

/-- Whether a word starts a type. -/
def isTypeWord (word : String) : Bool :=
  (typeOfWord? word).isSome

/-- Whether a word starts a value. -/
def isValueWord (word : String) : Bool :=
  ["true", "false", "null", "undef", "poison", "zeroinitializer", "getelementptr"].contains word ||
    (CastOp.ofName? word).isSome

/-- Passes over parameter attributes, such as `nocapture`, `align 8` or `dereferenceable(8)`. -/
def skipParamAttributes : Reader Unit :=
  repeatStep (fun _ => do
    match ← peek with
    | some (.keyword word) =>
      if isValueWord word || isTypeWord word then return .done ()
      advance
      match word == "align", ← peek with
      | true, some (.integer _) => advance
      | _, _ => skipParens
      return .again ()
    | _ => return .done ()) ()

/-! ## 2. Types -/

/-- An array's length. -/
def arrayLength : Reader Nat := do
  match ← next "expected array length" with
  | .integer n =>
    if 0 ≤ n ∧ n < span 64 then return n.toNat
    else throw (.integerOutOfRange (← get).line n)
  | other => unexpected "array length" other

/-- The parameters of a function type behind the opening parenthesis. -/
def paramTypes (ty : Reader Ty) : Reader (List Ty × Bool) :=
  repeatStep (fun (params, varArg) => do
    if ← accept .rightParen then return .done (params, varArg)
    let (params, varArg) ←
      if ← accept .ellipsis then pure (params, true)
      else do
        let t ← ty
        skipParamAttributes
        pure (params ++ [t], varArg)
    if ← accept .comma then return .again (params, varArg)
    expect .rightParen
    return .done (params, varArg)) ([], false)

/-- The head of a type. -/
def typeHead (ty : Reader Ty) : Reader Ty := do
  match ← next "expected type" with
  | .intType bits => return .int bits
  | .keyword word =>
    match typeOfWord? word with
    | some t => return t
    | none => unexpected "type" (.keyword word)
  | .localName name => return .named name
  | .localId n => return .named (toString n)
  | .leftBracket =>
    let n ← arrayLength
    expectWord "x"
    let element ← ty
    expect .rightBracket
    return .array n element
  | .leftBrace => return .struct (← commaList .rightBrace ty)
  | .less =>
    expect .leftBrace
    let fields ← commaList .rightBrace ty
    expect .greater
    return .struct fields
  | other => unexpected "type" other

/-- The suffixes of a type. -/
def typeSuffixes (ty : Reader Ty) (head : Ty) : Reader Ty :=
  repeatStep (fun t => do
    if ← accept .star then return .again (.ptr t)
    if ← acceptWord "addrspace" then
      skipGroup
      return .again t
    if ← accept .leftParen then
      let (params, varArg) ← paramTypes ty
      return .again (.func t params varArg)
    return .done t) head

/-- A type nested less deeply than `depth`. -/
def typeWithin : Nat → Reader Ty
  | 0 => throw (.unexpectedEnd "")
  | depth + 1 => do
    let head ← typeHead (typeWithin depth)
    typeSuffixes (typeWithin depth) head

/-- A type. Each level of nesting takes a token, so the tokens left bound the depth. -/
def type : Reader Ty := do
  typeWithin ((← get).rest.length + 1)

end QirProfile.Assembly.Reader
