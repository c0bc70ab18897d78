import QirProfile.Document.Yaml.Node
import QirProfile.Document.Yaml.Plain

/-!
# Reading YAML

The value of a document. A plain text means what it says; a tag can say otherwise, and a tag of the
document's own is refused. Keys are texts. Of two entries with one key the later counts. Lists and
maps may be 128 deep, and references may be followed a hundred times as often as the document has
parts.
-/

namespace QirProfile.Yaml

/-! ## 1. Texts -/

/-- The tags with a meaning of their own. -/
inductive Kind where
  | bool
  | int
  | float
  | null
  deriving DecidableEq

/-- The kind that a tag asks for. -/
def Kind.ofTag? (tag : List UInt8) : Option Kind :=
  let table : List (String × Kind) :=
    [("tag:yaml.org,2002:bool", .bool), ("tag:yaml.org,2002:int", .int),
     ("tag:yaml.org,2002:float", .float), ("tag:yaml.org,2002:null", .null)]
  (table.find? fun (name, _) => Text.utf8Bytes name = tag).map (·.2)

/-- Whether a tag is the document's own. -/
def isLocal (tag : List UInt8) : Bool := bareTag.isPrefixOf tag

/-- Whether the bytes of a tag are a text. -/
def isText (tag : List UInt8) : Bool := Text.utf8 (Text.decodeLossy tag) == tag

/-- The value of a text that a tag asks for. What is no finite number is kept as the empty value. -/
def Kind.read? (kind : Kind) (text : String) : Option Datum :=
  match kind, resolve? text with
  | .bool, some (.bool b) => some (.bool b)
  | .int, some (.int n) => some (.int n)
  | .float, _ => if unbounded.contains text then some .null else (double? text.toList).map .float
  | .null, _ => if isNullWord text then some .null else none
  | _, _ => none

/-- The value of a text. -/
def scalarValue? (tag : Option (List UInt8)) (plain : Bool) (text : String) : Option Datum :=
  match tag with
  | none => if plain then resolve? text else some (.text text)
  | some t =>
    match Kind.ofTag? t with
    | some kind => kind.read? text
    | none =>
      if isLocal t then
        if isText t then none else if plain then resolve? text else some (.text text)
      else some (.text text)

/-! ## 2. Nodes -/

/-- A step of following a document; it keeps how many references have been followed. -/
abbrev Following := StateT Nat Option

/-- The node itself, or the one that it refers to. -/
def follow (d : Document) : Node → Following Node
  | .reference number => do
    let n ← get
    if 100 * d.size ≤ n then failure
    set (n + 1)
    match d.target? number with
    | some target => return target
    | none => failure
  | node => return node

/-- The text of a key. -/
def keyText (d : Document) (node : Node) : Following String := do
  match ← follow d node with
  | .scalar _ _ text => return text
  | _ => failure

/-- Whether a list or a map may have this tag. -/
def allowsTag (tag : Option (List UInt8)) : Bool := tag.all fun t => !(isLocal t && isText t)

/-- The value of a node, where `inner` gives the values of the nodes in it; nothing is in it at the
    greatest depth. -/
def valueWith (d : Document) (inner : Option (Node → Following Datum)) (node : Node) :
    Following Datum := do
  match ← follow d node, inner with
  | .scalar tag plain text, _ =>
    match scalarValue? tag plain text with
    | some v => return v
    | none => failure
  | .list tag items, some value =>
    if !allowsTag tag then failure
    return .list (← items.mapM value)
  | .map tag entries, some value =>
    if !allowsTag tag then failure
    let entries ← entries.mapM fun (k, v) => do return (← keyText d k, ← value v)
    return .map (Datum.sorted entries)
  | _, _ => failure

/-- The value of a node in which lists and maps are at most this deep. -/
def value (d : Document) : (depth : Nat) → Node → Following Datum
  | 0 => valueWith d none
  | depth + 1 => valueWith d (some (value d depth))

/-! ## 3. Documents -/

/-- The value of a document; nothing where the text is none. An empty text is the empty value. -/
def read? (text : String) : Option Datum := do
  if !text.toList.all isReadable then none
  let tokens ← Token.all? (unifyBreaks text.toList)
  let document ← Document.ofTokens? tokens
  let (datum, _) ← (value document 128 document.root).run 0
  return datum

end QirProfile.Yaml
