import QirProfile.Document.Datum

/-!
# Sections of settings

A section describes a group of settings: its key in documents, its fields with their kinds and
default values, and the parameters that it documents for users. The values of a section stand in
the order of its fields.

A section reads its values from a map. Fields that the map lacks get their defaults, entries that
are no field are ignored, and a list is read as the first fields in order. The first entry that
does not fit its field is reported.
-/

namespace QirProfile

/-! ## 1. Values -/

/-- The kind of a setting. -/
inductive SettingKind where
  | flag
  /-- An unsigned word of so many bits. -/
  | unsigned (bits : Nat)
  /-- A signed word of so many bits. -/
  | signed (bits : Nat)
  | text
  | texts
  deriving DecidableEq

/-- The value of a setting. -/
inductive SettingValue where
  | flag (b : Bool)
  | number (n : Int)
  | text (s : String)
  | texts (items : List String)
  deriving DecidableEq

/-- How a setting is written in documents. -/
def SettingValue.datum : SettingValue → Datum
  | flag b => .bool b
  | number n => .int n
  | text s => .text s
  | texts items => .list (items.map .text)

/-- Why a value is refused. -/
inductive SettingError where
  /-- A value of another kind. -/
  | kind (found expected : String)
  /-- A number outside its range. -/
  | range (number : Int) (expected : String)
  /-- A list longer than the fields of its section. -/
  | length (found : Nat)
  deriving DecidableEq

/-- The wording of an error. -/
def SettingError.message : SettingError → String
  | kind found expected => "invalid type: " ++ found ++ ", expected " ++ expected
  | range n expected => "invalid value: integer `" ++ toString n ++ "`, expected " ++ expected
  | length n => "invalid length " ++ toString n ++ ", expected fewer elements in array"

namespace SettingKind

/-- What a kind is called where a value does not fit. -/
def expected : SettingKind → String
  | flag => "a boolean"
  | unsigned bits => "u" ++ toString bits
  | signed bits => "i" ++ toString bits
  | text => "a string"
  | texts => "a sequence"

/-- A text among the items of a list. -/
def readItem : Datum → Except SettingError String
  | .text s => .ok s
  | d => .error (.kind d.kindText SettingKind.text.expected)

/-- Whether a number is a word of the kind. -/
def holds (n : Int) : SettingKind → Bool
  | unsigned bits => 0 ≤ n && n < span bits
  | signed bits => -(span (bits - 1) : Int) ≤ n && n < span (bits - 1)
  | _ => false

/-- Reads a value of the kind. -/
def read (k : SettingKind) (d : Datum) : Except SettingError SettingValue :=
  match k, d with
  | flag, .bool b => .ok (.flag b)
  | unsigned _, .int n | signed _, .int n =>
    if k.holds n then .ok (.number n) else .error (.range n k.expected)
  | text, .text s => .ok (.text s)
  | texts, .list items => (items.mapM readItem).map .texts
  | _, _ => .error (.kind d.kindText k.expected)

end SettingKind

/-! ## 2. Sections -/

/-- A field of a section. -/
structure Field where
  name : String
  kind : SettingKind
  default : SettingValue
  deriving DecidableEq

/-- The description of a parameter for users. -/
structure FieldDoc where
  name : String
  description : String
  deriving DecidableEq

/-- A section of settings. -/
structure Section where
  /-- The key in documents. -/
  key : String
  title : String
  description : String
  fields : List Field
  /-- The parameters that users see; one that is no field has no value. -/
  docs : List FieldDoc
  deriving DecidableEq

/-- The values of a section by field. -/
abbrev Values := List (String × SettingValue)

namespace Values

/-- The flag of a name. -/
def flag (v : Values) (name : String) : Bool :=
  match v.lookup name with
  | some (.flag b) => b
  | _ => false

/-- The number of a name. -/
def number (v : Values) (name : String) : Int :=
  match v.lookup name with
  | some (.number n) => n
  | _ => 0

/-- The text of a name. -/
def text (v : Values) (name : String) : String :=
  match v.lookup name with
  | some (.text s) => s
  | _ => ""

/-- The texts of a name. -/
def texts (v : Values) (name : String) : List String :=
  match v.lookup name with
  | some (.texts items) => items
  | _ => []

/-- The entries of the map that values are written as. -/
def entries (v : Values) : List (String × Datum) :=
  Datum.sorted (v.map fun (name, value) => (name, value.datum))

/-- How values are written in documents. -/
def datum (v : Values) : Datum := .map (Values.entries v)

end Values

namespace Section

/-- The values that hold before anything is set. -/
def defaults (s : Section) : Values := s.fields.map fun f => (f.name, f.default)

/-- Reads the entries of a map that are fields, in the order of the map. -/
def readEntries (s : Section) : List (String × Datum) → Except SettingError Values
  | [] => .ok []
  | (name, d) :: rest =>
    match s.fields.find? (·.name == name) with
    | none => s.readEntries rest
    | some f => do
      let value ← f.kind.read d
      return (name, value) :: (← s.readEntries rest)

/-- Reads a list as the first fields. -/
def readItems : List Field → List Datum → Except SettingError Values
  | f :: fs, d :: ds => do
    let value ← f.kind.read d
    return (f.name, value) :: (← readItems fs ds)
  | _, _ => .ok []

/-- All fields, with defaults where no value was read. -/
def complete (s : Section) (read : Values) : Values :=
  s.fields.map fun f => (f.name, (read.lookup f.name).getD f.default)

/-- Reads the values of a section. -/
def read (s : Section) : Datum → Except SettingError Values
  | .map entries => (s.readEntries entries).map s.complete
  | .list items => do
    let values ← readItems s.fields items
    if s.fields.length < items.length then .error (.length items.length)
    else .ok (s.complete values)
  | d => .error (.kind d.kindText ("struct " ++ s.title))

end Section

end QirProfile
