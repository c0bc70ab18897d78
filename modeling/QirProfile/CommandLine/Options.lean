/-!
# Options of a command line

Options are long (`--name`, with a value after it or attached by `=`) or short (`-n`, several in one
word, a value attached or after it). After `--` every word is an operand. An option is given at most
once, unless it is counted. A word that starts with a dash is never taken as the value of the option
before it.
-/

namespace QirProfile.CommandLine

/-- What an option does. -/
inductive Action where
  | flag
  /-- A value; some options refuse the empty one. -/
  | value (mayBeEmpty : Bool)
  /-- Counted. -/
  | count
  | help
  | version
  deriving DecidableEq

/-- An option. -/
structure Opt where
  name : String
  short : Option Char := none
  action : Action := .flag
  /-- An option that excludes this one. -/
  excludes : Option String := none
  deriving DecidableEq

/-- Why a command line is refused, or answered at once. -/
inductive UsageError where
  | unknownArgument
  /-- Options that exclude each other, or one given twice. -/
  | argumentConflict
  /-- A value is missing or not allowed. -/
  | invalidValue
  /-- A value for an option that takes none. -/
  | tooManyValues
  | displayHelp
  | displayVersion
  deriving DecidableEq, Repr

/-- What was given on a command line. -/
structure Given where
  /-- Options without a value. -/
  flags : List String := []
  /-- Options with their values. -/
  values : List (String × String) := []
  /-- The operand. -/
  operand : Option String := none
  deriving DecidableEq

namespace Given

/-- Whether an option without a value was given. -/
def hasFlag (g : Given) (name : String) : Bool := g.flags.contains name

/-- The value given for an option. -/
def value? (g : Given) (name : String) : Option String := g.values.lookup name

end Given

/-- What waits for its value or for its end. -/
inductive Pending where
  | nothing
  /-- An option, and its value once it has been seen. -/
  | option (o : Opt) (value : Option String)
  | operand (word : String)

/-- The state of reading a command line. -/
structure ArgState where
  given : Given := {}
  pending : Pending := .nothing
  /-- Whether only operands follow. -/
  onlyOperands : Bool := false
  /-- Whether the operand has been seen. -/
  operandSeen : Bool := false

namespace ArgState

/-- Takes an option with a value. -/
def takeValue (s : ArgState) (o : Opt) (v : String) : Except UsageError ArgState :=
  if (s.given.value? o.name).isSome then .error .argumentConflict
  else if o.action = .value false ∧ v = "" then .error .invalidValue
  else .ok { s with given := { s.given with values := s.given.values ++ [(o.name, v)] } }

/-- Settles what waits. -/
def settle (s : ArgState) : Except UsageError ArgState :=
  let done := { s with pending := .nothing }
  match s.pending with
  | .nothing => .ok s
  | .option _ none => .error .invalidValue
  | .option o (some v) => done.takeValue o v
  | .operand word =>
    if word = "" then .error .invalidValue
    else .ok { done with given := { done.given with operand := some word } }

/-- Takes an option without a value. -/
def takeFlag (s : ArgState) (o : Opt) : Except UsageError ArgState := do
  let s ← s.settle
  match o.action with
  | .help => .error .displayHelp
  | .version => .error .displayVersion
  | .count => .ok s
  | _ =>
    if s.given.hasFlag o.name then .error .argumentConflict
    else .ok { s with given := { s.given with flags := s.given.flags ++ [o.name] } }

/-- Whether an option takes a value. -/
def takesValue (o : Opt) : Bool :=
  match o.action with
  | .value _ => true
  | _ => false

/-- Takes an option with the value attached to it, or lets it wait for one. -/
def takeOption (s : ArgState) (o : Opt) (attached : Option String) :
    Except UsageError ArgState := do
  let s ← s.settle
  match attached with
  | some v => s.takeValue o v
  | none => .ok { s with pending := .option o none }

/-- Takes a long option. -/
def takeLong (opts : List Opt) (s : ArgState) (word : List Char) : Except UsageError ArgState :=
  let name := String.ofList (word.takeWhile (· != '='))
  let attached := match word.dropWhile (· != '=') with
    | [] => none
    | _ :: v => some (String.ofList v)
  match opts.find? (·.name == name), attached with
  | none, _ => .error .unknownArgument
  | some o, some v => if takesValue o then s.takeOption o (some v) else .error .tooManyValues
  | some o, none => if takesValue o then s.takeOption o none else s.takeFlag o

/-- Takes the short options of a word. -/
def takeShorts (opts : List Opt) (s : ArgState) : List Char → Except UsageError ArgState
  | [] => .ok s
  | c :: rest =>
    match opts.find? (·.short == some c) with
    | none => .error .unknownArgument
    | some o =>
      if takesValue o then
        match rest with
        | [] => s.takeOption o none
        | '=' :: v => s.takeOption o (some (String.ofList v))
        | v => s.takeOption o (some (String.ofList v))
      else do takeShorts opts (← s.takeFlag o) rest

/-- Takes a word that is no option: the value that an option waits for, or the operand. -/
def takeWord (s : ArgState) (word : String) : Except UsageError ArgState := do
  match s.pending, s.onlyOperands with
  | .option o none, false => .ok { s with pending := .option o (some word) }
  | _, _ =>
    if s.operandSeen then .error .unknownArgument
    else
      let s ← s.settle
      .ok { s with pending := .operand word, operandSeen := true }

/-- Takes one word. -/
def step (opts : List Opt) (s : ArgState) (word : String) : Except UsageError ArgState :=
  if s.onlyOperands then s.takeWord word
  else
    match word.toList with
    | ['-', '-'] => .ok { s with onlyOperands := true }
    | '-' :: '-' :: name => s.takeLong opts name
    | '-' :: c :: rest => s.takeShorts opts (c :: rest)
    | _ => s.takeWord word

end ArgState

/-- Whether two given options exclude each other. -/
def conflicts (opts : List Opt) (g : Given) : Bool :=
  opts.any fun o => g.hasFlag o.name && o.excludes.any g.hasFlag

/-- Reads a command line. -/
def parseArgs (opts : List Opt) (args : List String) : Except UsageError Given := do
  let s ← args.foldlM (ArgState.step opts) {}
  let s ← s.settle
  if conflicts opts s.given then .error .argumentConflict else .ok s.given

end QirProfile.CommandLine
