/-!
# Settings of the transformation

Which phases the transformation runs, how it walks the execution path, and what it notes on entry
points.
-/

namespace QirProfile

/-- Settings of the transformation. -/
structure TransformSettings where
  /-- Delete functions and blocks that are not on the execution path. -/
  deleteDeadCode : Bool := true
  /-- Give each call its own copy of the function it calls. -/
  cloneFunctions : Bool := true
  /-- Try rules on the execution path only, and not on the whole program. -/
  executionPathOnly : Bool := true
  /-- How deep calls are followed along the execution path. -/
  maxRecursion : Nat := 512
  /-- Treat every invoke as a call that returns normally. -/
  assumeNoExcept : Bool := false
  reuseQubits : Bool := true
  annotateQubitUse : Bool := true
  reuseResults : Bool := true
  annotateResultUse : Bool := true
  /-- The attribute that marks entry points. -/
  entryPointAttr : String := "EntryPoint"
  simplifyPriorTransform : Bool := true
  deriving DecidableEq

namespace TransformSettings

/-- Settings that run none of the optional phases. -/
def disabled : TransformSettings where
  deleteDeadCode := false
  cloneFunctions := false
  executionPathOnly := false
  reuseQubits := false
  annotateQubitUse := false
  simplifyPriorTransform := false

/-- Whether all optional phases are off. -/
def isDisabled (s : TransformSettings) : Bool :=
  !s.deleteDeadCode && !s.cloneFunctions && !s.simplifyPriorTransform && !s.executionPathOnly &&
    !s.reuseQubits

end TransformSettings

/-- What a transformation did. -/
structure TransformStatistics where
  /-- Calls that got a copy of their own. -/
  functionsCloned : Nat := 0
  phisReplaced : Nat := 0
  functionsDeleted : Nat := 0
  blocksDeleted : Nat := 0
  /-- Instructions that a rule accepted. -/
  rulesApplied : Nat := 0
  instructionsRemoved : Nat := 0
  /-- The number of qubit addresses, where it was noted. -/
  requiredQubits : Option Nat := none
  /-- The number of result addresses, where it was noted. -/
  requiredResults : Option Nat := none
  deriving DecidableEq

end QirProfile
