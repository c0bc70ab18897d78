import QirProfile.CompileError
import QirProfile.Document.Datum
import QirProfile.Program.Basic

/-!
# Validation against a profile

A report counts the opcodes of a program, its calls of declared functions and its calls of defined
functions. The settings of a profile say which opcodes and which declared functions are allowed,
and whether a defined function may be called at all; what is not allowed is a violation.
-/

namespace QirProfile

/-! ## 1. Settings -/

/-- What a program is checked against. -/
structure ValidationSettings where
  /-- Whether calls of defined functions are allowed. -/
  allowInternalCalls : Bool := true
  /-- Whether opcodes must be among `opcodes`. -/
  allowlistOpcodes : Bool := false
  /-- Whether declared functions that are called must be among `externalCalls`. -/
  allowlistExternalCalls : Bool := false
  opcodes : List String := []
  externalCalls : List String := []
  /-- Where the report is written, if not empty. -/
  saveReportTo : String := ""
  deriving DecidableEq

namespace ValidationSettings

/-- Opcodes of the base profile. -/
def baseOpcodes : List String := ["br", "call", "unreachable", "ret", "phi", "select"]

/-- Functions that a program of the base profile may call. -/
def baseExternalCalls : List String :=
  ["__quantum__qis__mz__body",
   "__quantum__qis__read_result__body",
   "__quantum__qis__reset__body",
   "__quantum__qis__z__body",
   "__quantum__qis__s__adj",
   "__quantum__qis__dumpregister__body",
   "__quantum__qis__y__body",
   "__quantum__qis__x__body",
   "__quantum__qis__t__body",
   "__quantum__qis__cz__body",
   "__quantum__qis__s__body",
   "__quantum__qis__h__body",
   "__quantum__qis__cnot__body",
   "__quantum__qis__sqrt__body",
   "__quantum__qis__crz__body",
   "__quantum__qis__rz__body",
   "__quantum__qis__arcsin__body",
   "__quantum__qis__drawrandomint__body",
   "__quantum__qis__rx__body",
   "__quantum__qis__m__body",
   "__quantum__qis__t__adj"]

/-- The settings of the base profile. -/
def base : ValidationSettings where
  allowInternalCalls := false
  allowlistOpcodes := true
  allowlistExternalCalls := true
  opcodes := baseOpcodes
  externalCalls := baseExternalCalls

/-- The settings of a profile by name. -/
def ofProfile (name : String) : Except CompileError ValidationSettings :=
  match name with
  | "generic" => .ok {}
  | "base" => .ok base
  | other => .error (.invalidConfiguration ("Invalid profile " ++ other))

end ValidationSettings

/-! ## 2. Reports -/

/-- How often each name occurs, sorted by name. -/
abbrev Tally := List (String × Nat)

/-- Counts a name once more. -/
def Tally.add (name : String) : Tally → Tally
  | [] => [(name, 1)]
  | (k, n) :: rest =>
    if name < k then (name, 1) :: (k, n) :: rest
    else if name = k then (k, n + 1) :: rest
    else (k, n) :: Tally.add name rest

/-- What was found in a program. -/
structure ValidationReport where
  profile : String
  opcodes : Tally := []
  externalCalls : Tally := []
  internalCalls : Tally := []
  violations : List String := []
  deriving DecidableEq

namespace ValidationReport

/-- Whether nothing is violated. -/
def isValid (r : ValidationReport) : Bool := r.violations.isEmpty

/-- Counts a call of a function. -/
def countCall (r : ValidationReport) (f : Func) : ValidationReport :=
  if f.isDeclaration then { r with externalCalls := r.externalCalls.add f.name }
  else { r with internalCalls := r.internalCalls.add f.name }

/-- Counts an instruction. -/
def countInstr (p : Program) (r : ValidationReport) (id : InstrId) : ValidationReport :=
  let i := p.instr id
  let r := { r with opcodes := r.opcodes.add i.kind.opcode }
  i.calledFunction?.elim r fun f => r.countCall (p.func f)

/-- Counts what is in a program. -/
def collect (profile : String) (p : Program) : ValidationReport :=
  (p.liveFunctions.flatMap p.instrsOf).foldl (countInstr p) { profile := profile }

/-- The names of a tally that are not on a list, as violations. -/
def notAllowed (t : Tally) (allowed : List String) : List String :=
  (t.filter fun (name, _) => !allowed.contains name).map fun (name, _) =>
    "'" ++ name ++ "' is not allowed for this profile."

/-- The violations of some settings: opcodes first, then declared functions, then calls of defined
    functions. -/
def violationsOf (r : ValidationReport) (s : ValidationSettings) : List String :=
  (if s.allowlistOpcodes then notAllowed r.opcodes s.opcodes else []) ++
    (if s.allowlistExternalCalls then notAllowed r.externalCalls s.externalCalls else []) ++
    (if !s.allowInternalCalls && !r.internalCalls.isEmpty then
      ["Calls to custom defined functions not allowed."] else [])

/-- The report on a program with its violations. -/
def check (profile : String) (s : ValidationSettings) (p : Program) : ValidationReport :=
  let r := collect profile p
  { r with violations := r.violationsOf s }

/-- A tally as part of a document. -/
def tallyDatum (t : Tally) : Datum := .map (t.map fun (name, n) => (name, .int n))

/-- The report as a document. -/
def datum (r : ValidationReport) : Datum :=
  .map [("profile", .text r.profile), ("opcodes", tallyDatum r.opcodes),
    ("external_calls", tallyDatum r.externalCalls), ("internal_calls", tallyDatum r.internalCalls),
    ("violations", .list (r.violations.map .text))]

end ValidationReport

end QirProfile
