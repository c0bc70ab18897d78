import QirProfile.Cleanup
import QirProfile.Rule.Catalogue
import QirProfile.Settings.Store
import QirProfile.Transform.Settings
import QirProfile.Validation

/-!
# The sections of a profile

Each kind of settings that a profile has is a section of the store: `toValues` writes the settings
as the values of their section, and `ofValues` reads them back.
-/

namespace QirProfile

/-- A field whose default is on. -/
def Field.onFlag (name : String) : Field := ⟨name, .flag, .flag true⟩

/-- A field whose default is off. -/
def Field.offFlag (name : String) : Field := ⟨name, .flag, .flag false⟩

/-! ## 1. Validation -/

namespace ValidationSettings

/-- The section of validation settings. -/
def spec : Section where
  key := "validation"
  title := "Validation configuration"
  description := "Rules the generated program is checked against."
  fields :=
    [.onFlag "allow-internal-calls", .offFlag "allowlist-opcodes",
     .offFlag "allowlist-external-calls", ⟨"opcodes", .texts, .texts []⟩,
     ⟨"external-calls", .texts, .texts []⟩, ⟨"save-report-to", .text, .text ""⟩]
  docs :=
    [⟨"allow-internal-calls", "Whether or not internal calls are allowed."⟩,
     ⟨"allowlist-opcodes", "Restricts opcodes to the allowed list."⟩,
     ⟨"allowlist-external-calls", "Restricts external calls to the allowed list."⟩,
     ⟨"opcodes", "Allowed opcodes, comma separated."⟩,
     ⟨"external-calls", "Allowed external functions, comma separated."⟩,
     ⟨"save-report-to", "Saves the validation report to the specified file."⟩]

/-- The settings as values. -/
def toValues (s : ValidationSettings) : Values :=
  [("allow-internal-calls", .flag s.allowInternalCalls),
   ("allowlist-opcodes", .flag s.allowlistOpcodes),
   ("allowlist-external-calls", .flag s.allowlistExternalCalls),
   ("opcodes", .texts s.opcodes),
   ("external-calls", .texts s.externalCalls),
   ("save-report-to", .text s.saveReportTo)]

/-- The settings of values. -/
def ofValues (v : Values) : ValidationSettings where
  allowInternalCalls := v.flag "allow-internal-calls"
  allowlistOpcodes := v.flag "allowlist-opcodes"
  allowlistExternalCalls := v.flag "allowlist-external-calls"
  opcodes := v.texts "opcodes"
  externalCalls := v.texts "external-calls"
  saveReportTo := v.text "save-report-to"

theorem ofValues_toValues (s : ValidationSettings) : ofValues s.toValues = s := rfl

end ValidationSettings

/-- The settings with what the profile of a name is validated against. -/
def Settings.withProfile (s : Settings) (name : String) : Except CompileError Settings := do
  s.setValues ValidationSettings.spec (← ValidationSettings.ofProfile name).toValues

/-! ## 2. Rules -/

namespace RuleSettings

/-- The section of rule settings. -/
def spec : Section where
  key := "factory"
  title := "Transformation rules"
  description := "Rules used to transform instruction sequences in the QIR."
  fields :=
    [.onFlag "disable-reference-counting", .onFlag "disable-alias-counting",
     .onFlag "disable-string-support", .onFlag "optimise-result-one",
     .onFlag "optimise-result-zero", .onFlag "use-static-qubit-array-allocation",
     .onFlag "use-static-qubit-allocation", .onFlag "use-static-result-allocation",
     ⟨"default-integer-width", .unsigned 32, .number 64⟩]
  docs :=
    [⟨"disable-reference-counting", "Removes all reference counting instructions."⟩,
     ⟨"disable-alias-counting", "Removes all alias counting instructions."⟩,
     ⟨"disable-string-support", "Removes string and message runtime calls."⟩,
     ⟨"optimise-result-one", "Replaces branching on result equal to one with a read_result call."⟩,
     ⟨"optimise-result-zero",
       "Replaces branching on result equal to zero with a negated read_result call."⟩,
     ⟨"use-static-qubit-array-allocation",
       "Maps qubit array allocations and element accesses to static addresses."⟩,
     ⟨"use-static-qubit-allocation", "Maps single qubit allocations to static addresses."⟩,
     ⟨"use-static-result-allocation", "Maps measurement results to static addresses."⟩,
     ⟨"default-integer-width", "Bit width of the integers static addresses are cast from."⟩]

/-- The settings as values. -/
def toValues (s : RuleSettings) : Values :=
  [("disable-reference-counting", .flag s.disableReferenceCounting),
   ("disable-alias-counting", .flag s.disableAliasCounting),
   ("disable-string-support", .flag s.disableStringSupport),
   ("optimise-result-one", .flag s.optimiseResultOne),
   ("optimise-result-zero", .flag s.optimiseResultZero),
   ("use-static-qubit-array-allocation", .flag s.staticQubitArrays),
   ("use-static-qubit-allocation", .flag s.staticQubits),
   ("use-static-result-allocation", .flag s.staticResults),
   ("default-integer-width", .number s.integerWidth)]

/-- The settings of values. -/
def ofValues (v : Values) : RuleSettings where
  disableReferenceCounting := v.flag "disable-reference-counting"
  disableAliasCounting := v.flag "disable-alias-counting"
  disableStringSupport := v.flag "disable-string-support"
  optimiseResultOne := v.flag "optimise-result-one"
  optimiseResultZero := v.flag "optimise-result-zero"
  staticQubitArrays := v.flag "use-static-qubit-array-allocation"
  staticQubits := v.flag "use-static-qubit-allocation"
  staticResults := v.flag "use-static-result-allocation"
  integerWidth := (v.number "default-integer-width").toNat

theorem ofValues_toValues (s : RuleSettings) : ofValues s.toValues = s := rfl

end RuleSettings

/-! ## 3. Transformation -/

namespace TransformSettings

/-- The section of transformation settings. -/
def spec : Section where
  key := "transformation-rules-pass"
  title := "Pass configuration"
  description := "Configuration of the pass and its corresponding optimisations."
  fields :=
    [.onFlag "delete-dead-code", .onFlag "clone-functions",
     .onFlag "transform-execution-path-only", ⟨"max-recursion", .unsigned 64, .number 512⟩,
     .offFlag "assume-no-except", .onFlag "reuse-qubits", .onFlag "annotate-qubit-use",
     .onFlag "reuse-results", .onFlag "annotate-result-use",
     ⟨"entry-point-attr", .text, .text "EntryPoint"⟩, .onFlag "simplify-prior-transform"]
  docs :=
    [⟨"delete-dead-code", "Deletes dead code."⟩,
     ⟨"clone-functions", "Clones functions to ensure correct qubit allocation."⟩,
     ⟨"transform-execution-path-only", "Transforms execution paths only."⟩,
     ⟨"max-recursion", "Defines the maximum recursion when unrolling the execution path."⟩,
     ⟨"assume-no-except", "Assumes that no exception will occur during runtime."⟩,
     ⟨"reuse-qubits", "Defines whether or not to reuse qubits."⟩,
     ⟨"annotate-qubit-use", "Annotates the number of qubits used."⟩,
     ⟨"reuse-results", "Defines whether or not to reuse results."⟩,
     ⟨"annotate-result-use", "Annotates the number of results used."⟩,
     ⟨"entry-point-attr", "Specifies the attribute indicating the entry point."⟩,
     ⟨"simplify-prior-transform", "Simplifies the IR before transformation."⟩]

/-- The settings as values. -/
def toValues (s : TransformSettings) : Values :=
  [("delete-dead-code", .flag s.deleteDeadCode),
   ("clone-functions", .flag s.cloneFunctions),
   ("transform-execution-path-only", .flag s.executionPathOnly),
   ("max-recursion", .number s.maxRecursion),
   ("assume-no-except", .flag s.assumeNoExcept),
   ("reuse-qubits", .flag s.reuseQubits),
   ("annotate-qubit-use", .flag s.annotateQubitUse),
   ("reuse-results", .flag s.reuseResults),
   ("annotate-result-use", .flag s.annotateResultUse),
   ("entry-point-attr", .text s.entryPointAttr),
   ("simplify-prior-transform", .flag s.simplifyPriorTransform)]

/-- The settings of values. -/
def ofValues (v : Values) : TransformSettings where
  deleteDeadCode := v.flag "delete-dead-code"
  cloneFunctions := v.flag "clone-functions"
  executionPathOnly := v.flag "transform-execution-path-only"
  maxRecursion := (v.number "max-recursion").toNat
  assumeNoExcept := v.flag "assume-no-except"
  reuseQubits := v.flag "reuse-qubits"
  annotateQubitUse := v.flag "annotate-qubit-use"
  reuseResults := v.flag "reuse-results"
  annotateResultUse := v.flag "annotate-result-use"
  entryPointAttr := v.text "entry-point-attr"
  simplifyPriorTransform := v.flag "simplify-prior-transform"

theorem ofValues_toValues (s : TransformSettings) : ofValues s.toValues = s := rfl

end TransformSettings

/-! ## 4. Clean-up -/

namespace CleanupSettings

/-- The section of clean-up settings. -/
def spec : Section where
  key := "ir-passes"
  title := "IR passes"
  description := "Simplifications applied after the transformation."
  fields :=
    [.onFlag "constant-folding", .onFlag "eliminate-dead-instructions",
     .onFlag "strip-unused-declarations", .onFlag "inline-static-addresses"]
  docs :=
    [⟨"constant-folding", "Folds constant instructions."⟩,
     ⟨"eliminate-dead-instructions", "Removes unused instructions without side effects."⟩,
     ⟨"strip-unused-declarations", "Removes unused function declarations."⟩,
     ⟨"inline-static-addresses", "Replaces casts of constant addresses by constant expressions."⟩]

/-- The settings as values. -/
def toValues (s : CleanupSettings) : Values :=
  [("constant-folding", .flag s.constantFolding),
   ("eliminate-dead-instructions", .flag s.eliminateDeadInstructions),
   ("strip-unused-declarations", .flag s.stripUnusedDeclarations),
   ("inline-static-addresses", .flag s.inlineStaticAddresses)]

/-- The settings of values. -/
def ofValues (v : Values) : CleanupSettings where
  constantFolding := v.flag "constant-folding"
  eliminateDeadInstructions := v.flag "eliminate-dead-instructions"
  stripUnusedDeclarations := v.flag "strip-unused-declarations"
  inlineStaticAddresses := v.flag "inline-static-addresses"

theorem ofValues_toValues (s : CleanupSettings) : ofValues s.toValues = s := rfl

end CleanupSettings

end QirProfile
