import QirProfile.Cleanup
import QirProfile.Folder
import QirProfile.TypedMap
import QirProfile.Transform.Basic
import QirProfile.Validation

/-!
# Passes

A pass is one step of a pipeline: it changes or looks at a program and may leave findings among the
properties of the run. The passes of a pipeline are run in order, until one fails.
-/

namespace QirProfile

/-! ## 1. The state of a run -/

/-- What passes leave for whoever comes later. -/
inductive Property where
  | report
  | statistics
  /-- A count that a pass keeps under a name. -/
  | counter (name : String)
  /-- A remark that a pass leaves under a name. -/
  | note (name : String)
  deriving DecidableEq

/-- What is kept under a property. -/
abbrev Property.Finding : Property → Type
  | report => ValidationReport
  | statistics => TransformStatistics
  | counter _ => Int
  | note _ => String

/-- The findings of a run. -/
abbrev Findings := TypedMap Property.Finding

/-- The state of a run. -/
structure PassState where
  program : Program
  addresses : Addresses := {}
  findings : Findings := {}
  /-- Where reports are written. -/
  folder : Folder := {}

/-- A step of a run. What it has done stays when a later one fails. -/
abbrev Running := EStateM CompileError PassState

namespace Running

/-- Runs edits of the program. -/
def edit {α : Type} (e : Edit α) : Running α := fun s =>
  match e s.program with
  | .ok a p => .ok a { s with program := p }
  | .error cause p => .error (.program cause) { s with program := p }

/-- Runs a part of the transformation. -/
def transform {α : Type} (t : Transform.Transforming α) : Running α := fun s =>
  match t ⟨s.program, s.addresses⟩ with
  | .ok a c => .ok a { s with program := c.program, addresses := c.addresses }
  | .error e c => .error e { s with program := c.program, addresses := c.addresses }

/-- Leaves a finding. -/
def leave (k : Property) (v : k.Finding) : Running Unit :=
  modify fun s => { s with findings := s.findings.insert k v }

/-- Writes a file. -/
def writeFile (path text : String) : Running Unit := fun s =>
  match s.folder.write path text with
  | .ok folder => .ok () { s with folder := folder }
  | .error reason => .error (.file reason) s

end Running

/-! ## 2. Passes -/

/-- What a pass may do. -/
inductive PassKind where
  /-- It looks at the program. -/
  | analysis
  /-- It changes the program. -/
  | transformation
  deriving DecidableEq

/-- A pass. -/
structure Pass where
  name : String
  kind : PassKind
  /-- Whether the pass is run at all. -/
  shouldRun : PassState → Bool := fun _ => true
  run : Running Unit

namespace Pass

/-- Runs a pass, if it is to be run. -/
def step (p : Pass) : Running Unit := do
  if p.shouldRun (← get) then p.run

/-- Runs passes in order. -/
def runAll : List Pass → Running Unit
  | [] => return ()
  | p :: rest => do
    p.step
    runAll rest

/-- A pass that edits the program. -/
def ofEdit (name : String) (e : Edit Unit) : Pass where
  name := name
  kind := .transformation
  run := Running.edit e

/-- Folds constants. -/
def constantFolding : Pass := ofEdit "ConstantFolding" Cleanup.foldAll

/-- Removes dead instructions. -/
def deadInstructionElimination : Pass := ofEdit "DeadInstructionElimination" Cleanup.eliminateDead

/-- Removes unused declarations. -/
def stripUnusedDeclarations : Pass := ofEdit "StripUnusedDeclarations" Cleanup.stripUnused

/-- Writes static addresses as constants. -/
def inlineStaticAddresses : Pass := ofEdit "InlineStaticAddresses" Cleanup.inlineAddresses

/-- The clean-up passes that are switched on, in the order in which they are run. -/
def cleanup (s : CleanupSettings) : List Pass :=
  [(s.inlineStaticAddresses, inlineStaticAddresses),
   (s.constantFolding, constantFolding),
   (s.eliminateDeadInstructions, deadInstructionElimination),
   (s.stripUnusedDeclarations, stripUnusedDeclarations)].filterMap fun (on, p) =>
    if on then some p else none

/-- Transforms the program with a rule set. -/
def transformation (rules : List (Rule Addresses)) (s : TransformSettings) : Pass where
  name := "TransformationRules"
  kind := .transformation
  run := do
    let stats ← Running.transform (Transform.run rules s)
    Running.leave .statistics stats

/-- Checks the program against the settings of a profile. A violation fails the pass; the report is
    written and left all the same. -/
def validate (profile : String) (s : ValidationSettings) : Running Unit := do
  let report := ValidationReport.check profile s (← get).program
  unless s.saveReportTo.isEmpty do Running.writeFile s.saveReportTo report.datum.toJson
  Running.leave .report report
  unless report.isValid do throw (.validationFailed profile report.violations)

/-- Validates the program. -/
def validation (profile : String) (s : ValidationSettings) : Pass where
  name := "Validation"
  kind := .analysis
  run := validate profile s

end Pass

end QirProfile
