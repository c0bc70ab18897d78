import QirProfile.Pass
import QirProfile.Text.Quoted
import QirProfile.Verify

/-!
# Profiles

A profile is a pipeline of passes with the addresses that its rules hand out, and a check that the
outcome conforms to what the profile stands for. It can be applied to one program after the other;
each time the allocators and the findings start anew.
-/

namespace QirProfile

/-- A profile. -/
structure Profile where
  name : String
  /-- Whether the program is verified before and after the passes. -/
  debug : Bool := false
  passes : List Pass := []
  /-- What `validate` checks against; without it every program conforms. -/
  validator : Option ValidationSettings := none
  addresses : Addresses := {}
  /-- What the last run has left. -/
  findings : Findings := {}

namespace Profile

/-- The state that a profile starts with on a program. -/
def start (p : Profile) (program : Program) (folder : Folder) : PassState :=
  ⟨program, p.addresses, p.findings, folder⟩

/-- The profile after a run. -/
def resume (p : Profile) (s : PassState) : Profile :=
  { p with addresses := s.addresses, findings := s.findings }

/-- Fails on a program that is not well formed. -/
def verifyProgram : Running Unit := do
  match (← get).program.verify with
  | .ok _ => return ()
  | .error e => throw (.program e)

/-- Starts the allocators and the findings anew. -/
def renew (s : PassState) : PassState :=
  { s with
    addresses :=
      { s.addresses with
        qubits := s.addresses.qubits.reset
        results := s.addresses.results.reset }
    findings := {} }

/-- Applies the passes to the program. -/
def apply (p : Profile) : Running Unit := do
  modify renew
  if p.debug then verifyProgram
  Pass.runAll p.passes
  if p.debug then verifyProgram

/-- Checks that the program conforms. -/
def validate (p : Profile) : Running Unit :=
  match p.validator with
  | some s => Pass.validate p.name s
  | none => return ()

/-! ## 1. Descriptions -/

/-- A list of quoted names. -/
def quotedNames (names : List String) : String :=
  "[" ++ ", ".intercalate (names.map Text.quoted) ++ "]"

/-- The names of the passes in order. -/
def passNames (p : Profile) : List String := p.passes.map (·.name)

/-- A description of the profile. -/
def describe (p : Profile) : String :=
  "Profile \x7b name: " ++ Text.quoted p.name ++ ", debug: " ++ toString p.debug ++ ", passes: " ++
    quotedNames p.passNames ++ ", validator: " ++ toString p.validator.isSome ++ " \x7d"

/-- A description of the pipeline. -/
def describePipeline (p : Profile) : String :=
  "PassManager \x7b passes: " ++ quotedNames p.passNames ++ " \x7d"

end Profile

end QirProfile
