import QirProfile.Document.Yaml.Token

/-!
# From tokens to nodes

A node is a text, a list, a map, or a reference to a node with an anchor. The grammar is read from
left to right with one token ahead. Inside a list by layout or a map an entry may be missing; an
empty plain text stands for it.

A node with an anchor gets a number, and a reference has the number that its name had last. The
number is how many names were known before: a name that is used again gets a number that the next
new name gets too, and of two nodes with one number the one that starts later counts.
-/

namespace QirProfile.Yaml

/-! ## 1. Nodes -/

/-- A node of a document. A tag is kept as its bytes. -/
inductive Node where
  | scalar (tag : Option (List UInt8)) (plain : Bool) (text : String)
  | list (tag : Option (List UInt8)) (items : List Node)
  | map (tag : Option (List UInt8)) (entries : List (Node × Node))
  | reference (number : Nat)
  deriving Inhabited

/-- A node with an anchor. -/
structure Anchored where
  number : Nat
  /-- How much of the document stands before the node. -/
  start : Nat
  node : Node

/-- A document: its node, the nodes with an anchor, and its size, where a text and a reference count
    as one and a list and a map as two more than what is in them. -/
structure Document where
  root : Node
  anchored : List Anchored
  size : Nat

/-- The node that a number refers to. -/
def Document.target? (d : Document) (number : Nat) : Option Node :=
  let later := fun (best : Option Anchored) (a : Anchored) =>
    if a.number = number ∧ best.all (·.start ≤ a.start) then some a else best
  (d.anchored.foldl later none).map (·.node)

/-- The node of an entry that is missing. -/
def Node.empty : Node := .scalar none true ""

/-! ## 2. Reading tokens -/

/-- What has been read of the tokens of a document. -/
structure Reading where
  rest : List Token
  /-- The size of what has been read. -/
  size : Nat := 0
  /-- The names of anchors and their numbers. -/
  names : List (String × Nat) := []
  anchored : List Anchored := []
  /-- What the handles of tags stand for. -/
  handles : List (String × List UInt8) := []

/-- A step of reading; nothing where the document is refused. -/
abbrev Grammar := StateT Reading Option

namespace Grammar

/-- The next token. -/
def peek : Grammar (Option Token) := return (← get).rest.head?

/-- Takes a token. -/
def skip : Grammar Unit := modify fun r => { r with rest := r.rest.drop 1 }

/-- Counts a part of the document. -/
def count : Grammar Unit := modify fun r => { r with size := r.size + 1 }

/-- The node of an entry that is missing. -/
def missing : Grammar Node := do
  count
  return .empty

/-! ## 3. Properties -/

/-- The bytes of a tag. -/
def resolveTag (t : Tag) : Grammar (List UInt8) := do
  if t.handle = "" then return t.suffix
  match (← get).handles.lookup t.handle with
  | some start => return start ++ t.suffix
  | none => failure

/-- The anchor and the tag in front of a node, in either order. -/
def properties : Grammar (Option String × Option (List UInt8)) := do
  match ← peek with
  | some (.anchor name) =>
    skip
    match ← peek with
    | some (.tag t) =>
      skip
      return (some name, some (← resolveTag t))
    | _ => return (some name, none)
  | some (.tag t) =>
    skip
    match ← peek with
    | some (.anchor name) =>
      skip
      return (some name, some (← resolveTag t))
    | _ => return (none, some (← resolveTag t))
  | _ => return (none, none)

/-- Gives a name the next number. -/
def register (name : String) : Grammar Nat := do
  let r ← get
  let number := r.names.length
  let names := (name, number) :: r.names.filter (·.1 ≠ name)
  set { r with names := names }
  return number

/-- Keeps a node under its number. -/
def keep (number : Option Nat) (start : Nat) (node : Node) : Grammar Node := do
  number.forM fun n => modify fun r => { r with anchored := ⟨n, start, node⟩ :: r.anchored }
  return node

/-! ## 4. The grammar -/

/-- Whether no node stands in front of this token in a list by layout. -/
def endsItem : Option Token → Bool
  | some .item | some .blockEnd => true
  | _ => false

/-- Whether no node stands in front of this token in a list that is not indented. -/
def endsLooseItem : Option Token → Bool
  | some .item | some .key | some .value | some .blockEnd => true
  | _ => false

/-- Whether no node stands in front of this token in a map by layout. -/
def endsEntry : Option Token → Bool
  | some .key | some .value | some .blockEnd => true
  | _ => false

/-- Whether no node stands in front of this token in the place of a value inside brackets. -/
def endsValue (closesMap : Bool) : Option Token → Bool
  | some .comma => true
  | some .closeMap => closesMap
  | some .closeList => !closesMap
  | _ => false

/-- Whether no node stands in front of this token in the place of a key inside brackets. -/
def endsKey (closesMap : Bool) (t : Option Token) : Bool :=
  match t with
  | some .value => true
  | _ => endsValue closesMap t

mutual

/-- Reads a node. Layout counts if `block` is set; a list may stand in the column of the map around
    it if `loose` is set. -/
def node (block loose : Bool) : (fuel : Nat) → Grammar Node
  | 0 => failure
  | fuel + 1 => do
    match ← peek with
    | some (.alias name) =>
      skip
      count
      match (← get).names.lookup name with
      | some number => return .reference number
      | none => failure
    | _ =>
      let (name, tag) ← properties
      let start := (← get).size
      let number ← name.mapM register
      let found ← content block loose tag (name.isSome || tag.isSome) fuel
      keep number start found

/-- Reads what follows the properties of a node. It may be missing if there are any. -/
def content (block loose : Bool) (tag : Option (List UInt8)) (optional : Bool) :
    (fuel : Nat) → Grammar Node
  | 0 => failure
  | fuel + 1 => do
    let next ← peek
    match next, block, loose with
    | some .item, _, true =>
      count
      let items ← looseItems fuel
      count
      return .list tag items
    | some (.scalar plain text), _, _ =>
      skip
      count
      return .scalar tag plain text
    | some .openList, _, _ =>
      skip
      count
      let items ← innerItems true fuel
      count
      return .list tag items
    | some .openMap, _, _ =>
      skip
      count
      let entries ← innerEntries true fuel
      count
      return .map tag entries
    | some .listStart, true, _ =>
      skip
      count
      let items ← blockItems fuel
      count
      return .list tag items
    | some .mapStart, true, _ =>
      skip
      count
      let entries ← blockEntries fuel
      count
      return .map tag entries
    | _, _, _ =>
      if optional then
        count
        return .scalar tag true ""
      else failure

/-- Reads the items of a list by layout, with its end. -/
def blockItems : (fuel : Nat) → Grammar (List Node)
  | 0 => failure
  | fuel + 1 => do
    match ← peek with
    | some .item =>
      skip
      let found ← if endsItem (← peek) then missing else node true false fuel
      return found :: (← blockItems fuel)
    | some .blockEnd =>
      skip
      return []
    | _ => failure

/-- Reads the items of a list that is not indented. -/
def looseItems : (fuel : Nat) → Grammar (List Node)
  | 0 => failure
  | fuel + 1 => do
    match ← peek with
    | some .item =>
      skip
      let found ← if endsLooseItem (← peek) then missing else node true false fuel
      return found :: (← looseItems fuel)
    | _ => return []

/-- Reads the entries of a map by layout, with its end. -/
def blockEntries : (fuel : Nat) → Grammar (List (Node × Node))
  | 0 => failure
  | fuel + 1 => do
    match ← peek with
    | some .key =>
      skip
      let key ← if endsEntry (← peek) then missing else node true true fuel
      let value ←
        match ← peek with
        | some .value => do
          skip
          if endsEntry (← peek) then missing else node true true fuel
        | _ => missing
      return (key, value) :: (← blockEntries fuel)
    | some .blockEnd =>
      skip
      return []
    | _ => failure

/-- Reads the value of an entry inside brackets. -/
def innerValue (closesMap : Bool) : (fuel : Nat) → Grammar Node
  | 0 => failure
  | fuel + 1 => do
    match ← peek with
    | some .value =>
      skip
      if endsValue closesMap (← peek) then missing else node false false fuel
    | _ => missing

/-- Reads an item inside brackets. It can be the one entry of a map. Where the key of that entry is
    missing, the token in its place is lost. -/
def innerItem : (fuel : Nat) → Grammar Node
  | 0 => failure
  | fuel + 1 => do
    match ← peek with
    | some .key =>
      skip
      count
      let key ←
        if endsKey false (← peek) then do
          skip
          missing
        else node false false fuel
      let value ← innerValue false fuel
      count
      return .map none [(key, value)]
    | _ => node false false fuel

/-- Reads the items of a list up to its closing bracket. -/
def innerItems (first : Bool) : (fuel : Nat) → Grammar (List Node)
  | 0 => failure
  | fuel + 1 => do
    match (← peek), first with
    | some .closeList, _ =>
      skip
      return []
    | some .comma, false =>
      skip
      match ← peek with
      | some .closeList =>
        skip
        return []
      | _ =>
        let found ← innerItem fuel
        return found :: (← innerItems false fuel)
    | _, true =>
      let found ← innerItem fuel
      return found :: (← innerItems false fuel)
    | _, false => failure

/-- Reads an entry inside brackets. Its value is missing if no mark stands in front of its key. -/
def innerEntry : (fuel : Nat) → Grammar (Node × Node)
  | 0 => failure
  | fuel + 1 => do
    match ← peek with
    | some .key =>
      skip
      let key ← if endsKey true (← peek) then missing else node false false fuel
      return (key, ← innerValue true fuel)
    | _ =>
      let key ← node false false fuel
      return (key, ← missing)

/-- Reads the entries of a map up to its closing bracket. -/
def innerEntries (first : Bool) : (fuel : Nat) → Grammar (List (Node × Node))
  | 0 => failure
  | fuel + 1 => do
    match (← peek), first with
    | some .closeMap, _ =>
      skip
      return []
    | some .comma, false =>
      skip
      match ← peek with
      | some .closeMap =>
        skip
        return []
      | _ =>
        let found ← innerEntry fuel
        return found :: (← innerEntries false fuel)
    | _, true =>
      let found ← innerEntry fuel
      return found :: (← innerEntries false fuel)
    | _, false => failure

end

/-! ## 5. Documents -/

/-- What the handles of tags stand for unless a directive says otherwise. -/
def standardHandles : List (String × List UInt8) :=
  [("!", bareTag), ("!!", Text.utf8Bytes "tag:yaml.org,2002:")]

/-- Takes the directives in front of a document: one version at most, and no handle twice. -/
def directives (versioned : Bool) : List Token → Grammar Unit
  | .directive (.version major minor) :: rest => do
    if versioned || major != 1 || (minor != 1 && minor != 2) then failure
    skip
    directives true rest
  | .directive (.handle name start) :: rest => do
    let r ← get
    if (r.handles.lookup name).isSome then failure
    set { r with handles := r.handles ++ [(name, start)] }
    skip
    directives versioned rest
  | _ => return ()

/-- Takes the marks behind a document. -/
def dropEnds : List Token → List Token
  | .documentEnd :: rest => dropEnds rest
  | rest => rest

/-- Whether a document that is marked at its start has nothing in it. -/
def isVoid : Option Token → Bool
  | none | some (.directive _) | some .documentStart | some .documentEnd => true
  | _ => false

/-- Reads the one document of some tokens; nothing where there is none. A document with directives
    must be marked at its start. -/
def document (fuel : Nat) : Grammar (Option Node) := do
  let tokens := (← get).rest
  directives false tokens
  let directed := (← get).rest.length < tokens.length
  modify fun r => { r with handles := r.handles ++ standardHandles }
  let found ←
    match ← peek with
    | some .documentStart => do
      skip
      some <$> (if isVoid (← peek) then missing else node true false fuel)
    | none => if directed then failure else pure none
    | some _ => if directed then failure else some <$> node true false fuel
  if (dropEnds (← get).rest).isEmpty then return found else failure

end Grammar

/-- The document of some tokens. No tokens are the document of an empty text. -/
def Document.ofTokens? (tokens : List Token) : Option Document := do
  let (root, r) ← (Grammar.document (4 * tokens.length + 8)).run { rest := tokens }
  return ⟨root.getD .empty, r.anchored, r.size⟩

end QirProfile.Yaml
