import QirProfile.Allocator
import QirProfile.Program.Edit

/-!
# Why a compilation fails

The causes that stop a pass, a profile or a configuration, and their wording.
-/

namespace QirProfile

/-- Why a compilation stops. -/
inductive CompileError where
  | program (cause : ProgramError)
  | allocation (cause : AllocationError)
  | passFailed (pass reason : String)
  | invalidConfiguration (reason : String)
  /-- The execution path runs through an exception edge. -/
  | exceptionPath (function : String)
  | validationFailed (profile : String) (violations : List String)
  /-- The same instruction was to be replaced twice. -/
  | replacementConflict (instruction : InstrId)
  /-- A file cannot be read or written. -/
  | file (reason : String)
  /-- A text is no settings document, or a value does not fit its place. -/
  | serialization (reason : String)
  deriving DecidableEq, Repr

namespace CompileError

/-- The message of an error. -/
def message : CompileError → String
  | program cause => "IR error: " ++ cause.message
  | allocation cause => "Allocation error: " ++ cause.message
  | passFailed pass reason => "Pass '" ++ pass ++ "' failed: " ++ reason
  | invalidConfiguration reason => "Invalid configuration: " ++ reason
  | exceptionPath function =>
    "Exception paths cannot be handled at compile time in '" ++ function ++
      "'. Either disable transform-execution-path-only or enable assume-no-except"
  | validationFailed profile violations =>
    "QIR is not valid within the '" ++ profile ++ "' profile: " ++ "; ".intercalate violations
  | replacementConflict instruction =>
    "Instruction " ++ instruction.text ++ " was scheduled for replacement more than once"
  | file reason => "I/O error: " ++ reason
  | serialization reason => "Serialization error: " ++ reason

/-- The messages of what lies behind an error, which its own message repeats. -/
def causes : CompileError → List String
  | program cause => [cause.message]
  | allocation cause => [cause.message]
  | file reason => [reason]
  | _ => []

end CompileError

end QirProfile
