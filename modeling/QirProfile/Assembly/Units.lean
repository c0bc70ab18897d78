import QirProfile.Assembly.Instructions
import QirProfile.Assembly.Scan

/-!
# Reading whole program texts

A program text is a sequence of entities: header lines, named types, globals, functions, attribute
groups and metadata. `readTree` reads all of them, and each kind keeps its order.
-/

namespace QirProfile.Assembly

namespace Reader

/-! ## 1. Attributes -/

/-- A quoted key, with an optional quoted value. -/
def stringAttribute : Reader Attribute := do
  let key ← string
  if ← accept .equals then return .pair key (some (← string))
  return .pair key none

/-- The tokens of a group as one text, with a blank behind each comma. -/
def groupText (ts : List Lexeme) : String :=
  String.join (ts.map fun x => if x.token = .comma then ", " else x.token.text)

/-- A keyword attribute behind its word, with arguments or a value as they are written. -/
def keywordAttribute (word : String) : Reader Attribute := do
  if ← at? .leftParen then
    let before := (← get).rest
    skipGroup
    let after := (← get).rest
    return .keyword (word ++ groupText (before.take (before.length - after.length)))
  if ← accept .equals then
    let value ← next "expected attribute value"
    return .keyword (word ++ "=" ++ value.text)
  return .keyword word

/-- An attribute group behind its word. -/
def attributeGroup : Reader (Nat × List Attribute) := do
  let id ← do
    match ← next "expected attribute group id" with
    | .groupId n => pure n
    | other => unexpected "attribute group id" other
  expect .equals
  expect .leftBrace
  let attributes ← repeatStep (fun items => do
    match ← peek with
    | some .rightBrace =>
      advance
      return .done items
    | some (.string _) => return .again (items ++ [← stringAttribute])
    | some (.keyword word) =>
      advance
      return .again (items ++ [← keywordAttribute word])
    | some other => unexpected "attribute" other
    | none => throw (.unexpectedEnd "expected '\x7d'")) []
  return (id, attributes)

/-! ## 2. Globals -/

/-- The words of linkage. -/
def linkages : List String :=
  ["private", "internal", "available_externally", "linkonce", "weak", "common", "appending",
    "extern_weak", "linkonce_odr", "weak_odr", "external"]

/-- Whether a word is one of the two address markers. -/
def isAddressMarker (word : String) : Bool :=
  word == "unnamed_addr" || word == "local_unnamed_addr"

/-- The words before a global's type: linkage, address marker, and whether it is constant. -/
def globalWords : Reader (Option String × Option String × Bool) :=
  repeatStep (fun (linkage, marker) => do
    match ← next "expected 'global' or 'constant'" with
    | .keyword "global" => return .done (linkage, marker, false)
    | .keyword "constant" => return .done (linkage, marker, true)
    | .keyword word =>
      if isAddressMarker word then return .again (linkage, some word)
      if linkages.contains word then return .again (some word, marker)
      skipParens
      return .again (linkage, marker)
    | other => unexpected "'global' or 'constant'" other) (none, none)

/-- The properties behind a global, of which only the alignment counts. -/
def globalProperties : Reader (Option Nat) :=
  repeatStep (fun align => do
    if ← accept .comma then
      match ← next "expected global property" with
      | .keyword "align" => return .again (some (← number32))
      | .keyword "section" | .keyword "partition" =>
        let _ ← string
        return .again align
      | .keyword "comdat" =>
        skipParens
        return .again align
      | .metadataName _ =>
        skipMetadata
        return .again align
      | other => unexpected "global property" other
    return .done align) none

/-- A global variable. -/
def globalVariable : Reader GlobalTree := do
  let name ← globalSymbol
  expect .equals
  let (linkage, marker, constant) ← globalWords
  let ty ← type
  let init ← if ← atTerm? then some <$> term else pure none
  return ⟨name, ty, linkage, marker, constant, init, ← globalProperties⟩

/-! ## 3. Functions -/

/-- Whether a word starts a new entity. -/
def isEntityWord (word : String) : Bool :=
  ["define", "declare", "attributes", "target", "source_filename", "module"].contains word

/-- The words before a function's result type, of which only the linkage counts. -/
def functionWords : Reader (Option String) :=
  repeatStep (fun linkage => do
    match ← peek with
    | some (.keyword word) =>
      if isTypeWord word then return .done linkage
      advance
      skipParens
      return .again (if linkages.contains word then some word else linkage)
    | _ => return .done linkage) none

/-- The parameters of a function behind the opening parenthesis. -/
def functionParams : Reader (List (Ty × Option Assembly.Symbol) × Bool) :=
  repeatStep (fun (params, varArg) => do
    if ← accept .rightParen then return .done (params, varArg)
    let (params, varArg) ←
      if ← accept .ellipsis then pure (params, true)
      else do
        let ty ← type
        skipParamAttributes
        let symbol ← do
          match ← peek with
          | some (.localName _) | some (.localId _) => some <$> localSymbol
          | _ => pure none
        pure (params ++ [(ty, symbol)], varArg)
    if ← accept .comma then return .again (params, varArg)
    expect .rightParen
    return .done (params, varArg)) ([], false)

/-- What may stand behind the parameters of a function. -/
structure FunctionTail where
  unnamedAddr : Option String := none
  attributes : List Attribute := []
  groups : List Nat := []

/-- What a word behind the parameters adds. -/
def functionTailWord (tail : FunctionTail) (word : String) : Reader FunctionTail := do
  match word with
  | "unnamed_addr" | "local_unnamed_addr" => return { tail with unnamedAddr := some word }
  | "section" | "gc" | "partition" =>
    let _ ← string
    return tail
  | "align" =>
    let _ ← number32
    return tail
  | "personality" | "prefix" | "prologue" =>
    let _ ← typedTerm
    return tail
  | "comdat" =>
    skipParens
    return tail
  | _ => return { tail with attributes := tail.attributes ++ [← keywordAttribute word] }

/-- Everything behind the parameters up to the body or the next entity. -/
def functionTail : Reader FunctionTail :=
  repeatStep (fun tail => do
    match ← peek with
    | some (.keyword word) =>
      if isEntityWord word then return .done tail
      advance
      return .again (← functionTailWord tail word)
    | some (.groupId n) =>
      advance
      return .again { tail with groups := tail.groups ++ [n] }
    | some (.string _) =>
      return .again { tail with attributes := tail.attributes ++ [← stringAttribute] }
    | some (.metadataName _) =>
      if (← peekSecond) = some .equals then return .done tail
      advance
      skipMetadata
      return .again tail
    | _ => return .done tail) {}

/-- Adds an instruction to the block at hand; the first one may open a block without a label. -/
def pushInstr (blocks : List BlockTree) (i : InstrTree) : List BlockTree :=
  match blocks.getLast? with
  | some b => blocks.dropLast ++ [{ b with instrs := b.instrs ++ [i] }]
  | none => [⟨none, [i]⟩]

/-- The blocks of a function up to the closing brace. -/
def functionBody : Reader (List BlockTree) :=
  repeatStep (fun blocks => do
    match ← peek with
    | none => throw (.unexpectedEnd "expected '\x7d'")
    | some .rightBrace =>
      advance
      return .done blocks
    | some (.labelName name) =>
      advance
      return .again (blocks ++ [⟨some (.named name), []⟩])
    | some (.labelId n) =>
      advance
      return .again (blocks ++ [⟨some (.numbered n), []⟩])
    | some _ => return .again (pushInstr blocks (← instruction))) []

/-- A function, with a body if it is a definition. -/
def function (isDefinition : Bool) : Reader FuncTree := do
  let linkage ← functionWords
  let ret ← type
  let name ← globalSymbol
  expect .leftParen
  let (params, varArg) ← functionParams
  let tail ← functionTail
  let blocks ←
    if isDefinition then do
      expect .leftBrace
      functionBody
    else pure []
  return ⟨name.key, ret, params, varArg, linkage, tail.unnamedAddr, tail.attributes, tail.groups,
    blocks⟩

/-! ## 4. Programs -/

/-- A named type. -/
def namedType : Reader (String × Option Ty) := do
  let name ← localSymbol
  expect .equals
  expectWord "type"
  if ← acceptWord "opaque" then return (name.key, none)
  return (name.key, some (← type))

/-- The layout or the target behind the word `target`. -/
def targetLine (tree : ProgramTree) : Reader ProgramTree := do
  let which ← next "expected target property"
  expect .equals
  let value ← string
  if which.isKeyword "datalayout" then return { tree with dataLayout := some value }
  if which.isKeyword "triple" then return { tree with targetTriple := some value }
  unexpected "datalayout or triple" which

/-- An entity that starts with a word. -/
def wordEntity (tree : ProgramTree) (word : String) : Reader ProgramTree := do
  if !isEntityWord word then unexpected "top-level entity" (.keyword word)
  advance
  match word with
  | "source_filename" =>
    expect .equals
    return { tree with sourceFile := some (← string) }
  | "target" => targetLine tree
  | "define" => return { tree with functions := tree.functions ++ [← function true] }
  | "declare" => return { tree with functions := tree.functions ++ [← function false] }
  | "attributes" => return { tree with groups := tree.groups ++ [← attributeGroup] }
  | _ =>
    -- Inline assembly is passed over.
    expectWord "asm"
    let _ ← string
    return tree

/-- Entities up to the end of the text. -/
def program : Reader ProgramTree :=
  repeatStep (fun tree => do
    match ← peek with
    | none => return .done tree
    | some (.keyword word) => return .again (← wordEntity tree word)
    | some (.localName _) | some (.localId _) =>
      return .again { tree with namedTypes := tree.namedTypes ++ [← namedType] }
    | some (.globalName _) | some (.globalId _) =>
      return .again { tree with globals := tree.globals ++ [← globalVariable] }
    | some (.metadataName _) | some (.metadataId _) =>
      advance
      expect .equals
      skipMetadata
      return .again tree
    | some other =>
      advance
      unexpected "top-level entity" other) {}

end Reader

/-- The tree of a program text. -/
def readTree (source : String) : Except ReadError ProgramTree := do
  let lexemes ← tokens source
  let (tree, _) ← Reader.program.run ⟨lexemes, 1⟩
  return tree

end QirProfile.Assembly
