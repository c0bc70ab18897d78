import QirProfile.CompileError
import QirProfile.Document.Yaml.Read
import QirProfile.Settings.Section
import QirProfile.Text.Blank

/-!
# The store of settings

The store holds the values of the registered sections. A section can belong to a component, which
can be switched off as a whole. Parameters are found by name across sections, so no two sections
may document the same name.

Values come from three sides: single parameters as data, single parameters as text, and whole
documents. A document is taken section by section, in the order of the keys; what was taken before
an error stays.
-/

namespace QirProfile

/-- A registered section and its values. -/
structure Registered where
  spec : Section
  /-- The component it belongs to. -/
  component : Option String
  active : Bool := true
  values : Values
  deriving DecidableEq

/-- The registered sections, in the order of registration. -/
structure Settings where
  sections : List Registered := []
  deriving DecidableEq

/-- What kind of text a parameter is given as. -/
inductive ParameterKind where
  | flag
  | integer
  | text
  | list
  deriving DecidableEq, Repr

/-- The kind of a parameter by its present value. -/
def ParameterKind.ofDatum : Datum → ParameterKind
  | .bool _ => flag
  | .int _ | .float _ => integer
  | .list _ => list
  | _ => text

/-- A parameter and its present value. -/
structure Parameter where
  /-- The key of its section. -/
  owner : String
  name : String
  description : String
  value : Datum

/-- The kind of a parameter. -/
def Parameter.kind (p : Parameter) : ParameterKind := .ofDatum p.value

/-- A component that can be switched off. -/
structure ComponentState where
  id : String
  /-- The key of its section. -/
  owner : String
  active : Bool
  deriving DecidableEq

namespace Settings

/-- A refusal by the store. -/
def refuse {α : Type} (reason : String) : Except CompileError α :=
  .error (.invalidConfiguration reason)

/-! ## 1. Registration -/

/-- Whether a registered section documents a parameter. -/
def documents (r : Registered) (name : String) : Bool :=
  r.spec.docs.any (·.name == name)

/-- Registers a section with its default values. -/
def register (s : Settings) (spec : Section) (component : Option String) :
    Except CompileError Settings :=
  if s.sections.any (·.spec = spec) then
    refuse ("section '" ++ spec.key ++ "' is already registered")
  else if s.sections.any (·.spec.key == spec.key) then
    refuse ("section key '" ++ spec.key ++ "' is already taken")
  else
    match spec.docs.find? fun d => s.sections.any (documents · d.name) with
    | some d => refuse ("parameter '" ++ d.name ++ "' is declared by more than one section")
    | none =>
      .ok ⟨s.sections ++ [{ spec := spec, component := component, values := spec.defaults }]⟩

/-! ## 2. Sections as a whole -/

/-- A section as it is registered. -/
def find? (s : Settings) (spec : Section) : Option Registered :=
  s.sections.find? (·.spec = spec)

/-- Whether a section is registered. -/
def contains (s : Settings) (spec : Section) : Bool := (s.find? spec).isSome

/-- The values of a section. -/
def values (s : Settings) (spec : Section) : Except CompileError Values :=
  match s.find? spec with
  | some r => .ok r.values
  | none => refuse ("section '" ++ spec.key ++ "' is not registered")

/-- Whether a section is registered and not switched off. -/
def isActive (s : Settings) (spec : Section) : Bool :=
  (s.find? spec).any (·.active)

/-- Changes the first registered section that fits. -/
def update (s : Settings) (fits : Registered → Bool) (f : Registered → Registered) : Settings :=
  ⟨s.sections.modify (s.sections.findIdx fits) f⟩

/-- Replaces the values of a section. -/
def setValues (s : Settings) (spec : Section) (v : Values) : Except CompileError Settings :=
  if s.contains spec then .ok (s.update (·.spec = spec) ({ · with values := v }))
  else refuse ("section '" ++ spec.key ++ "' is not registered")

/-! ## 3. Components -/

/-- The components in the order of registration. -/
def components (s : Settings) : List ComponentState :=
  s.sections.filterMap fun r => r.component.map fun id => ⟨id, r.spec.key, r.active⟩

/-- Switches a component on or off. -/
def setActive (s : Settings) (id : String) (active : Bool) : Except CompileError Settings :=
  if s.sections.any (·.component == some id) then
    .ok (s.update (·.component == some id) ({ · with active := active }))
  else refuse ("unknown component '" ++ id ++ "'")

/-! ## 4. Parameters -/

/-- The parameters of a registered section. -/
def parametersOf (r : Registered) : List Parameter :=
  r.spec.docs.map fun d =>
    ⟨r.spec.key, d.name, d.description, ((r.values.lookup d.name).map (·.datum)).getD .null⟩

/-- All parameters with their present values. -/
def parameters (s : Settings) : List Parameter := s.sections.flatMap parametersOf

/-- Sets a parameter. -/
def setParameter (s : Settings) (name : String) (d : Datum) : Except CompileError Settings :=
  match s.sections.find? (documents · name) with
  | none => refuse ("unknown parameter '" ++ name ++ "'")
  | some r =>
    match r.spec.read (.map (Datum.insertSorted name d (Values.entries r.values))) with
    | .ok v => .ok (s.update (documents · name) ({ · with values := v }))
    | .error e =>
      let cause := CompileError.serialization e.message
      refuse ("invalid value for '" ++ name ++ "': " ++ cause.message)

/-- The digits of a number, if there is nothing else. -/
def digits? (cs : List Char) : Option Nat :=
  if cs.isEmpty || !cs.all Char.isDigit then none
  else some (cs.foldl (fun n c => 10 * n + (c.toNat - '0'.toNat)) 0)

/-- An integer as text: an unsigned or else a signed word of 64 bits, with a sign if need be. -/
def integer? (cs : List Char) : Option Int :=
  match cs with
  | '-' :: rest => (digits? rest).bind fun n => if n ≤ span 63 then some (-(n : Int)) else none
  | '+' :: rest => (digits? rest).bind fun n => if n < span 64 then some n else none
  | _ => (digits? cs).bind fun n => if n < span 64 then some n else none

/-- The items of a list given as text, between commas. -/
def splitList (raw : String) : List String :=
  ((raw.toList.splitOn ',').map Text.trim).filterMap fun cs =>
    if cs.isEmpty then none else some (String.ofList cs)

/-- Reads a parameter given as text. -/
def parse? (kind : ParameterKind) (raw : String) : Option Datum :=
  match kind with
  | .flag =>
    let word := String.ofList ((Text.trim raw.toList).map Char.toLower)
    if ["", "true", "1", "yes", "on"].contains word then some (.bool true)
    else if ["false", "0", "no", "off"].contains word then some (.bool false)
    else none
  | .integer => (integer? (Text.trim raw.toList)).map .int
  | .text => some (.text raw)
  | .list => some (.list ((splitList raw).map .text))

/-- Sets a parameter given as text. -/
def setText (s : Settings) (name raw : String) : Except CompileError Settings :=
  match s.parameters.find? (·.name == name) with
  | none => refuse ("unknown parameter '" ++ name ++ "'")
  | some p =>
    match parse? p.kind raw with
    | none => refuse ("invalid value '" ++ raw ++ "' for '" ++ name ++ "'")
    | some d => s.setParameter name d

/-! ## 5. Documents -/

/-- The key under which a document lists the components that are switched off. -/
def disabledKey : String := "disabled-components"

/-- The settings as a document. -/
def document (s : Settings) : Datum :=
  let off := s.components.filter (!·.active)
  let entries := s.sections.map fun r => (r.spec.key, Values.datum r.values)
  .map (Datum.sorted (entries ++
    if off.isEmpty then [] else [(disabledKey, .list (off.map fun c => .text c.id))]))

/-- A change of the store that can fail. What was changed before stays. -/
abbrev Loading := EStateM CompileError Settings

/-- Takes a change, or fails with the store as it is. -/
def take (f : Settings → Except CompileError Settings) : Loading Unit := fun s =>
  match f s with
  | .ok t => .ok () t
  | .error e => .error e s

/-- Switches the listed components off. -/
def loadDisabled (d : Datum) : Loading Unit := do
  match SettingKind.texts.read d with
  | .ok (.texts ids) => ids.forM fun id => take (·.setActive id false)
  | .ok _ => return ()
  | .error e => throw (.serialization e.message)

/-- What a section's map becomes when another map is laid over it. -/
def overlay (r : Registered) (key : String) : Datum → Except CompileError Values
  | .map update =>
    let merged := update.foldl (fun m (k, d) => Datum.insertSorted k d m) (Values.entries r.values)
    (r.spec.read (.map merged)).mapError fun e => .serialization e.message
  | .null => .ok r.values
  | _ => refuse ("section '" ++ key ++ "' must be a mapping")

/-- Takes a section from a document. -/
def loadSection (s : Settings) (key : String) (d : Datum) : Except CompileError Settings :=
  match s.sections.find? (·.spec.key == key) with
  | none => refuse ("unknown section '" ++ key ++ "'")
  | some r => do
    let v ← overlay r key d
    return s.update (·.spec.key == key) ({ · with values := v })

/-- Takes the entries of a document in order. -/
def loadEntries : List (String × Datum) → Loading Unit
  | [] => return ()
  | (key, d) :: rest => do
    if key = disabledKey then loadDisabled d else take (·.loadSection key d)
    loadEntries rest

/-- Takes a document. What it does not mention keeps its value. -/
def load : Datum → Loading Unit
  | .map entries => loadEntries entries
  | .null => return ()
  | _ => throw (.invalidConfiguration "configuration document must be a mapping")

/-- Takes a document given as text. -/
def loadText (text : String) : Loading Unit :=
  match Yaml.read? text with
  | some d => load d
  | none => throw (.serialization "not a document of settings")

/-! ## 6. Listing -/

/-- How a value is listed. -/
def listed : Datum → String
  | .text s => s
  | .list items => ",".intercalate (items.map fun d => match d with
    | .text s => s
    | d => d.toJson)
  | d => d.toJson

/-- A name filled up with blanks. -/
def padRight (width : Nat) (s : String) : String :=
  s ++ String.ofList (List.replicate (width - s.length) ' ')

/-- The lines about a section. -/
def describeSection (width : Nat) (all : List Parameter) (r : Registered) : List String :=
  ["; # " ++ r.spec.title] ++
    (if r.spec.description.isEmpty then [] else ["; " ++ r.spec.description]) ++
    (r.component.toList.map fun id =>
      "; component '" ++ id ++ "' is " ++ if r.active then "enabled" else "disabled") ++
    ((all.filter (·.owner == r.spec.key)).map fun p =>
      "; " ++ padRight width p.name ++ "  " ++ listed p.value) ++
    [";"]

/-- A listing of every section and parameter. -/
def describe (s : Settings) : String :=
  let all := s.parameters
  let width := (all.map (·.name.length)).foldl max 0
  String.join ((s.sections.flatMap (describeSection width all)).map (· ++ "\n"))

end Settings

end QirProfile
