import QirProfile.Rule.Catalogue
import QirProfile.Transform.ActiveCode

/-!
# The transformation

The transformation settles the execution path of a program and then tries a rule set along it:

1. each call on the path gets a copy of its own (`specialiseCalls`);
2. the code off the path is found, phis lose their dead edges, and dead code is deleted;
3. the rules are tried on the path, or on the whole program, and their schedule is carried out.
   Entry points are marked with the number of addresses in use.
-/

namespace QirProfile

/-- A program under compilation and the addresses handed out for it. -/
structure Compilation where
  program : Program
  addresses : Addresses := {}

/-- The state of trying rules along a path. -/
structure RuleRun where
  addresses : Addresses
  scheduled : List Replacement := []
  /-- How many instructions a rule has accepted. -/
  accepted : Nat := 0

namespace Transform

/-! ## 1. Trying rules -/

/-- Tries the rules on one instruction. -/
def tryRules (rules : List (Rule Addresses)) (id : InstrId) : Walk RuleRun Unit := fun t =>
  let start : RuleState Addresses :=
    { program := t.program, scheduled := t.extra.scheduled, extra := t.extra.addresses }
  match Replacing.applyFirst rules id start with
  | .ok accepted r =>
    .ok () { t with
      program := r.program
      extra := ⟨r.extra, r.scheduled, if accepted then t.extra.accepted + 1 else t.extra.accepted⟩ }
  | .error e r =>
    .error e { t with program := r.program, extra := ⟨r.extra, r.scheduled, t.extra.accepted⟩ }

/-- Tries the rules on every instruction of the path. -/
def ruleVisitor (rules : List (Rule Addresses)) : Visitor RuleRun := fun v => do
  v.toInstr?.forM (tryRules rules)
  return some v

/-- Tries the rules on every instruction of some functions. -/
def tryEverywhere (rules : List (Rule Addresses)) : List FuncId → Walk RuleRun Unit
  | [] => return ()
  | f :: rest => do
    ((← Walk.program).instrsOf f).forM (tryRules rules)
    tryEverywhere rules rest

/-! ## 2. Notes on entry points -/

/-- The attribute for the number of qubit addresses. -/
def requiredQubitsAttr : String := "requiredQubits"

/-- The attribute for the number of result addresses. -/
def requiredResultsAttr : String := "requiredResults"

/-- Marks a function with the number of addresses in use, as the settings ask for. A device needs
    every address that occurs, so it is the extent that counts, and not the greatest number in use
    at one time. -/
def annotate (s : TransformSettings) (a : Addresses) (f : Func) : Func :=
  let f := if s.annotateQubitUse then
      f.addAttribute (.pair requiredQubitsAttr (some (toString a.qubits.nextId)))
    else f
  if s.annotateResultUse then
    f.addAttribute (.pair requiredResultsAttr (some (toString a.results.nextId)))
  else f

/-! ## 3. The phases -/

/-- Tries rules where the settings say, and marks the entry points if that is the execution path. -/
def tryAll (rules : List (Rule Addresses)) (s : TransformSettings) (entries : List FuncId) :
    Walk RuleRun Unit := do
  if s.executionPathOnly then
    entries.forM fun entry => discard (Walk.walk s.limits (ruleVisitor rules) entry)
    modify fun t =>
      { t with program := entries.foldl (·.updateFunc · (annotate s t.extra.addresses)) t.program }
  else
    tryEverywhere rules (← Walk.program).liveFunctions

/-- What a number of the statistics is where entry points were marked. -/
def noted (on : Bool) (entries : List FuncId) (count : Nat) : Option Nat :=
  if on && !entries.isEmpty then some count else none

/-- A step of the transformation. What it has done stays when a later one fails. -/
abbrev Transforming := EStateM CompileError Compilation

/-- Runs a change of the program. -/
def compile {α : Type} (f : Compile α) : Transforming α := fun c =>
  match f c.program with
  | .ok a p => .ok a { c with program := p }
  | .error e p => .error e { c with program := p }

/-- Tries rules and gives what was scheduled. -/
def runRules (rules : List (Rule Addresses)) (s : TransformSettings) (entries : List FuncId) :
    Transforming RuleRun := fun c =>
  match tryAll rules s entries { program := c.program, extra := { addresses := c.addresses } } with
  | .ok _ t => .ok t.extra ⟨t.program, t.extra.addresses⟩
  | .error e t => .error e ⟨t.program, t.extra.addresses⟩

/-- Tries rules and carries their schedule out. -/
def applyRules (rules : List (Rule Addresses)) (s : TransformSettings)
    (stats : TransformStatistics) : Transforming TransformStatistics := do
  let entries := s.entryPoints (← get).program
  let run ← runRules rules s entries
  let removed ← compile (carryOut run.scheduled)
  let onPath := s.executionPathOnly
  return { stats with
    rulesApplied := run.accepted
    instructionsRemoved := removed
    requiredQubits := noted (onPath && s.annotateQubitUse) entries run.addresses.qubits.nextId
    requiredResults := noted (onPath && s.annotateResultUse) entries run.addresses.results.nextId }

/-- Deletes dead code. -/
def removeDeadCode (s : TransformSettings) (stats : TransformStatistics) :
    Compile TransformStatistics := do
  match activeCode s (← get) with
  | .error e => throw e
  | .ok a =>
    let phis ← Compile.edit (replaceSettledPhis a)
    let (functions, blocks) ← Compile.edit (deleteDeadCode a)
    return { stats with
      phisReplaced := phis, functionsDeleted := functions, blocksDeleted := blocks }

/-- Lets the allocators hand released addresses out again, or not. -/
def setReuse (s : TransformSettings) (a : Addresses) : Addresses :=
  { a with qubits := a.qubits.setReuse s.reuseQubits, results := a.results.setReuse s.reuseResults }

/-- Transforms a program and says what was done. -/
def run (rules : List (Rule Addresses)) (s : TransformSettings) :
    Transforming TransformStatistics := do
  modify fun c => { c with addresses := setReuse s c.addresses }
  let cloned ← if s.cloneFunctions then compile (specialiseCalls s) else pure 0
  let stats : TransformStatistics := { functionsCloned := cloned }
  let stats ← if s.deleteDeadCode then compile (removeDeadCode s stats) else pure stats
  applyRules rules s stats

end Transform

end QirProfile
