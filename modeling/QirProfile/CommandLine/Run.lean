import QirProfile.Assembly.Print
import QirProfile.Assembly.Resolve
import QirProfile.CommandLine.Options
import QirProfile.Document.Yaml.Write
import QirProfile.Generator

/-!
# The command

A run puts its settings together in layers: the validation settings of the profile, a document of
settings, and the options of the command line. It then reads a program, applies the profile,
verifies, validates and writes, each if asked to. What was printed or written before a failure
stays.
-/

namespace QirProfile.CommandLine

/-! ## 1. Options -/

/-- The options of the command itself. -/
def fixedOptions : List Opt :=
  [{ name := "generate" }, { name := "validate" },
   { name := "profile", action := .value true },
   { name := "emit-ll", short := some 'S' },
   { name := "output", short := some 'o', action := .value false },
   { name := "verify-module" }, { name := "dump-config" },
   { name := "save-config", action := .value false },
   { name := "load-config", action := .value false },
   { name := "debug" },
   { name := "verbose", short := some 'v', action := .count },
   { name := "help", short := some 'h', action := .help },
   { name := "version", short := some 'V', action := .version }]

/-- The option that switches a flag off. -/
def negated (name : String) : String := "no-" ++ name

/-- The option that switches a component off. -/
def disabling (id : String) : String := "disable-" ++ id

/-- The options of a parameter: one for a value, two for a flag. -/
def parameterOptions (p : Parameter) : List Opt :=
  match p.kind with
  | .flag => [{ name := p.name }, { name := negated p.name, excludes := some p.name }]
  | _ => [{ name := p.name, action := .value true }]

/-- All options. -/
def options (s : Settings) : List Opt :=
  fixedOptions ++ s.parameters.flatMap parameterOptions ++
    s.components.map fun c => { name := disabling c.id }

/-! ## 2. Sessions -/

/-- What a run can see and change. -/
structure Session where
  folder : Folder := {}
  stdout : String := ""
  stderr : String := ""

/-- A failure: what was being done, and the causes behind it. -/
abbrev Failure := List String

/-- A step of a run. -/
abbrev Command := EStateM Failure Session

namespace Command

/-- Prints to the standard output. -/
def print (text : String) : Command Unit :=
  modify fun s => { s with stdout := s.stdout ++ text }

/-- Prints a line about what was done. -/
def report (text : String) : Command Unit :=
  modify fun s => { s with stderr := s.stderr ++ "✓ " ++ text ++ "\n" }

/-- The failure of a compilation. -/
def failureOf (e : CompileError) : Failure := e.message :: e.causes

/-- Takes an answer, or fails with its error. -/
def lift {α : Type} (a : Except CompileError α) : Command α :=
  match a with
  | .ok x => pure x
  | .error e => throw (failureOf e)

/-- Reads a file. -/
def readFile (doing path : String) : Command String := do
  match (← get).folder.read path with
  | .ok text => return text
  | .error reason => throw [doing ++ ": " ++ path, reason]

/-- Writes a file. -/
def writeFile (path text : String) : Command Unit := do
  match (← get).folder.write path text with
  | .ok folder => modify fun s => { s with folder := folder }
  | .error reason => throw ["Failed to write file: " ++ path, reason]

/-- Runs a part of a profile on a program; gives the program and the profile afterwards. -/
def runProfile (p : Profile) (part : Running Unit) (program : Program) :
    Command (Program × Profile) := fun s =>
  match part (p.start program s.folder) with
  | .ok _ t => .ok (t.program, p.resume t) { s with folder := t.folder }
  | .error e t => .error (failureOf e) { s with folder := t.folder }

end Command

/-! ## 3. Settings -/

/-- Takes a document of settings. -/
def loadSettings (path text : String) (s : Settings) : Except Failure Settings :=
  match Settings.loadText text s with
  | .ok _ t => .ok t
  | .error e _ => .error (("Invalid configuration in " ++ path) :: Command.failureOf e)

/-- Takes a parameter from the command line, if it was given. -/
def applyParameter (g : Given) (s : Settings) (p : Parameter) : Except CompileError Settings :=
  match p.kind with
  | .flag =>
    if g.hasFlag p.name then s.setText p.name "true"
    else if g.hasFlag (negated p.name) then s.setText p.name "false"
    else .ok s
  | _ =>
    match g.value? p.name with
    | some raw => s.setText p.name raw
    | none => .ok s

/-- Switches a component off, if asked to. -/
def applyComponent (g : Given) (s : Settings) (c : ComponentState) : Except CompileError Settings :=
  if g.hasFlag (disabling c.id) then s.setActive c.id false else .ok s

/-- Takes what was given on the command line. -/
def applyGiven (g : Given) (s : Settings) : Except CompileError Settings := do
  let s ← s.parameters.foldlM (applyParameter g) s
  s.components.foldlM (applyComponent g) s

/-- The name of the profile. -/
def profileName (g : Given) : String := (g.value? "profile").getD "generic"

/-- The settings of a run, layer by layer. -/
def assemble (g : Given) (s : Settings) : Command Settings := do
  let s ← Command.lift (s.withProfile (profileName g))
  let s ←
    match g.value? "load-config" with
    | none => pure s
    | some path => do
      let text ← Command.readFile "Failed to read configuration" path
      match loadSettings path text s with
      | .ok t => pure t
      | .error failure => throw failure
  Command.lift (applyGiven g s)

/-! ## 4. Programs -/

/-- Whether a path has the extension of the binary format, which is not read. -/
def isBitcode (path : String) : Bool :=
  match (Folder.place path).getLast? with
  | some name =>
    let parts := name.splitOn "."
    parts.getLast? == some "bc" && 2 ≤ parts.length && parts != ["", "bc"]
  | none => false

/-- Reads a program from a file. -/
def loadProgram (path : String) : Command Program := do
  unless (← get).folder.exists? path do throw ["File not found: " ++ path]
  let text ← Command.readFile "Failed to read file" path
  if isBitcode path then throw ["Bitcode input is not supported, use LLVM assembly (.ll)"]
  match Assembly.read text with
  | .ok p => return p
  | .error e =>
    let causes := match e with
      | .program cause => [cause.message]
      | _ => []
    throw (["Failed to parse " ++ path, e.message] ++ causes)

/-- Writes a program to a file, or prints it. -/
def writeProgram (p : Program) : Option String → Command Unit
  | some path => Command.writeFile path (Assembly.print p)
  | none => Command.print (Assembly.print p)

/-! ## 5. The run -/

/-- Saves and lists the settings, if asked to. -/
def showSettings (g : Given) (s : Settings) : Command Unit := do
  (g.value? "save-config").forM fun path => do
    Command.writeFile path (Yaml.write s.document)
    Command.report ("Configuration saved to " ++ path)
  if g.hasFlag "dump-config" then Command.print s.describe

/-- Generates, verifies, validates and writes a program, each if asked to. -/
def process (g : Given) (generator : Generator) (program : Program) : Command Unit := do
  let name := profileName g
  let generates := g.hasFlag "generate"
  let validates := g.hasFlag "validate"
  let profile ←
    if generates || validates then Command.lift (generator.newProfile name (g.hasFlag "debug"))
    else pure { name := name }
  let (program, profile) ←
    if generates then Command.runProfile profile profile.apply program
    else pure (program, profile)
  if g.hasFlag "verify-module" then
    match program.verify with
    | .ok _ => pure ()
    | .error e => throw ["Module verification failed", e.message]
  let (program, _) ←
    if validates then do
      let r ← Command.runProfile profile profile.validate program
      Command.report ("Program is valid for the '" ++ name ++ "' profile")
      pure r
    else pure (program, profile)
  if g.hasFlag "emit-ll" || (g.value? "output").isSome then
    writeProgram program (g.value? "output")

/-- Runs the command with what was given. -/
def execute (g : Given) (generator : Generator) : Command Unit := do
  let s ← assemble g generator.settings
  showSettings g s
  match g.operand with
  | some path => process g { generator with settings := s } (← loadProgram path)
  | none =>
    unless g.hasFlag "dump-config" || (g.value? "save-config").isSome do
      throw ["Expected exactly one input file"]

/-- How a run ends. -/
inductive Outcome where
  | done
  | failed (message : String)
  | usage (e : UsageError)
  deriving DecidableEq

/-- The exit code of an outcome. A request for help or the version is no error. -/
def Outcome.exitCode : Outcome → UInt8
  | done => 0
  | failed _ => 1
  | usage .displayHelp | usage .displayVersion => 0
  | usage _ => 2

/-- Runs a command line in a folder. -/
def run (args : List String) (folder : Folder) : Outcome × Session :=
  let start : Session := { folder := folder }
  match Generator.standard with
  | .error e => (.failed (": ".intercalate (Command.failureOf e)), start)
  | .ok generator =>
    match parseArgs (options generator.settings) args with
    | .error e => (.usage e, start)
    | .ok g =>
      match execute g generator start with
      | .ok _ s => (.done, s)
      | .error failure s => (.failed (": ".intercalate failure), s)

/-- The paths that a run may read or write. Where a report goes can depend on the settings, which
    are read from the folder. -/
def paths (args : List String) (folder : Folder) : List String :=
  match Generator.standard with
  | .error _ => []
  | .ok generator =>
    match parseArgs (options generator.settings) args with
    | .error _ => []
    | .ok g =>
      let report := match assemble g generator.settings { folder := folder } with
        | .ok s _ =>
          (s.values ValidationSettings.spec).toOption.map fun v =>
            (ValidationSettings.ofValues v).saveReportTo
        | .error _ _ => none
      g.operand.toList ++ report.toList ++
        ["load-config", "save-config", "output"].filterMap g.value?

end QirProfile.CommandLine
