import QirProfile.Rule.Addresses

/-!
# The catalogue of rules

Besides the rules for addresses there are those for runtime calls that a compiled program does without.
Calls that only keep the books of a runtime are removed. A comparison of a result with one of the
two canonical results becomes a read of that result. The size of an array that was made with a
constant size is that constant.

`RuleGroup` names what a rule set can be made of, `RuleSettings` says which groups a profile
installs. The more specific rules come first.
-/

namespace QirProfile.Replacing

open Pattern (call callNamed any)

variable {σ : Type}

/-! ## 1. Bookkeeping -/

/-- Removes every call of a function. -/
def removeCalls (function : String) : Rule σ :=
  .of (callNamed function) deleteInstr

/-- Functions that count references. -/
def referenceCounting : List String :=
  ["__quantum__rt__string_update_reference_count",
   "__quantum__rt__result_update_reference_count",
   "__quantum__rt__array_update_reference_count"]

/-- Functions that count aliases. -/
def aliasCounting : List String :=
  ["__quantum__rt__string_update_alias_count",
   "__quantum__rt__result_update_alias_count",
   "__quantum__rt__array_update_alias_count"]

/-- Functions on strings and messages. -/
def stringSupport : List String :=
  ["__quantum__rt__fail",
   "__quantum__rt__message",
   "__quantum__rt__string_update_alias_count",
   "__quantum__rt__string_create",
   "__quantum__rt__string_get_data",
   "__quantum__rt__string_get_length",
   "__quantum__rt__string_update_reference_count",
   "__quantum__rt__string_concatenate",
   "__quantum__rt__string_equal",
   "__quantum__rt__int_to_string",
   "__quantum__rt__double_to_string",
   "__quantum__rt__bool_to_string",
   "__quantum__rt__result_to_string",
   "__quantum__rt__pauli_to_string",
   "__quantum__rt__qubit_to_string",
   "__quantum__rt__range_to_string",
   "__quantum__rt__bigint_to_string"]

/-! ## 2. Comparisons of results -/

/-- Whether every user of an instruction is scheduled to go. -/
def allUsersScheduled (id : InstrId) : Replacing σ Bool := do
  let s ← get
  return (s.program.usersOf (.instr id)).all fun
    | .instr user => s.scheduled.any (·.old == user)
    | .global _ => false

/-- Puts a read of the result in the place of a comparison, negated for the canonical zero. The
    fetch of the canonical result goes too once nothing else needs it. -/
def readResult (negated : Bool) : Replacer σ := fun id c => do
  match c.lookup "result" with
  | none => return false
  | some result =>
    let sig : Signature := ⟨.int 1, [(← program).valueTy result], false⟩
    let f ← edit (Edit.make (·.ensureFunction "__quantum__qis__read_result__body" sig))
    let read ← edit (Edit.insert (.before id) ((← program).draftCall f [result] none))
    let answer ←
      if negated then edit (Edit.insert (.before id) ((← program).draftNot (.instr read) none))
      else pure read
    change fun p => (p.takeName id answer).replaceUses (.instr id) (.instr answer)
    scheduleDelete id
    (c.instr? "one").forM fun canonical => do
      if ← allUsersScheduled canonical then scheduleDeleteOnce canonical
    return true

/-- Comparisons with a canonical result, on either side. -/
def resultReadRules (canonical : String) (negated : Bool) : List (Rule σ) :=
  let fetch := (call canonical []).as "one"
  let result := any.as "result"
  [.of (call "__quantum__rt__result_equal" [result, fetch]) (readResult negated),
   .of (call "__quantum__rt__result_equal" [fetch, result]) (readResult negated)]

/-! ## 3. Array sizes -/

/-- Puts the constant size in the place of a size query. -/
def resolveSize : Replacer σ := fun id c => do
  match c.lookup "size" with
  | some size@(.int _ _) =>
    change (·.replaceUses (.instr id) size)
    scheduleDelete id
    return true
  | _ => return false

/-- Sizes of arrays that were made in this program. -/
def arraySizeRules : List (Rule σ) :=
  [.of (call "__quantum__rt__array_get_size_1d"
      [call "__quantum__rt__array_create_1d" [any.as "elementSize", any.as "size"]])
    resolveSize]

end QirProfile.Replacing

namespace QirProfile

/-! ## 4. Groups of rules -/

/-- A group of rules that is installed as a whole. -/
inductive RuleGroup where
  | referenceCounting
  | aliasCounting
  | stringSupport
  | resultOne
  | resultZero
  | qubitArrays
  | qubits
  | results
  | arraySizes
  deriving DecidableEq

open Replacing in
/-- The rules of a group. Addresses are cast from integers of the given width. -/
def RuleGroup.rules (width : Nat) : RuleGroup → List (Rule Addresses)
  | referenceCounting => Replacing.referenceCounting.map removeCalls
  | aliasCounting => Replacing.aliasCounting.map removeCalls
  | stringSupport => Replacing.stringSupport.map removeCalls
  | resultOne => resultReadRules "__quantum__rt__result_get_one" false
  | resultZero => resultReadRules "__quantum__rt__result_get_zero" true
  | qubitArrays => qubitArrayRules width
  | qubits => qubitRules width
  | results => resultRules width
  | arraySizes => arraySizeRules

/-- Which groups of rules a profile uses. -/
structure RuleSettings where
  disableReferenceCounting : Bool := true
  disableAliasCounting : Bool := true
  disableStringSupport : Bool := true
  optimiseResultOne : Bool := true
  optimiseResultZero : Bool := true
  staticQubitArrays : Bool := true
  staticQubits : Bool := true
  staticResults : Bool := true
  /-- The width of the integers that addresses are cast from. -/
  integerWidth : Nat := 64
  deriving DecidableEq

namespace RuleSettings

/-- Settings with every group switched off. -/
def disabled : RuleSettings := ⟨false, false, false, false, false, false, false, false, 64⟩

/-- Whether no group is switched on. -/
def isDisabled (s : RuleSettings) : Bool :=
  s = { disabled with integerWidth := s.integerWidth }

/-- The groups that are switched on, in the order in which they are installed. -/
def groups (s : RuleSettings) : List RuleGroup :=
  [(s.disableReferenceCounting, .referenceCounting),
   (s.disableAliasCounting, .aliasCounting),
   (s.disableStringSupport, .stringSupport),
   (s.optimiseResultOne, .resultOne),
   (s.optimiseResultZero, .resultZero),
   (s.staticQubitArrays, .qubitArrays),
   (s.staticQubits, .qubits),
   (s.staticResults, RuleGroup.results)].filterMap fun (on, g) => if on then some g else none

/-- The rule set of the settings. -/
def rules (s : RuleSettings) : List (Rule Addresses) :=
  s.groups.flatMap (·.rules s.integerWidth)

end RuleSettings

end QirProfile
