import QirProfile.CompileError
import QirProfile.Pattern
import QirProfile.Program.Builder
import QirProfile.Program.Uses

/-!
# Replacement rules

A rule is a pattern and a replacer. The rules of a set are tried in order on one instruction; the
first one whose pattern matches and whose replacer accepts has done the work. A replacer does not
take the instruction away itself: it schedules that, and `carryOut` does it once all instructions
have been seen. What a declining replacer has scheduled is dropped.

The state of rules at work holds the program, the schedule, and further state `σ` that the replacers
of a set share.
-/

namespace QirProfile

/-! ## 1. The schedule -/

/-- An instruction that is to go, and the one that takes its place, if any. -/
structure Replacement where
  old : InstrId
  new : Option InstrId := none
  deriving DecidableEq

/-- The state of rules at work. -/
structure RuleState (σ : Type) where
  program : Program
  scheduled : List Replacement := []
  extra : σ

/-- A step of rules at work. What it has done stays when a later one fails. -/
abbrev Replacing (σ : Type) := EStateM CompileError (RuleState σ)

namespace Replacing

variable {σ α : Type}

/-- The program as it stands. -/
def program : Replacing σ Program := return (← get).program

/-- Runs edits of the program. -/
def edit (e : Edit α) : Replacing σ α := fun s =>
  match e s.program with
  | .ok a p => .ok a { s with program := p }
  | .error cause p => .error (.program cause) { s with program := p }

/-- Changes the program. -/
def change (f : Program → Program) : Replacing σ Unit :=
  modify fun s => { s with program := f s.program }

/-- Schedules an instruction to go and another one to take its place. -/
def scheduleReplace (old new : InstrId) : Replacing σ Unit :=
  modify fun s => { s with scheduled := s.scheduled ++ [⟨old, some new⟩] }

/-- Schedules an instruction to go. -/
def scheduleDelete (old : InstrId) : Replacing σ Unit :=
  modify fun s => { s with scheduled := s.scheduled ++ [⟨old, none⟩] }

/-- Whether an instruction is scheduled to go. -/
def isScheduled (id : InstrId) : Replacing σ Bool :=
  return (← get).scheduled.any (·.old == id)

/-- Schedules an instruction to go, once. -/
def scheduleDeleteOnce (id : InstrId) : Replacing σ Unit := do
  unless ← isScheduled id do scheduleDelete id

end Replacing

/-! ## 2. Rules -/

/-- A replacer gets the instruction and what the pattern has recorded, and says whether it
    accepts. -/
abbrev Replacer (σ : Type) := InstrId → Captures → Replacing σ Bool

/-- A rule. Without a pattern it matches nothing, without a replacer it declines. -/
structure Rule (σ : Type) where
  pattern : Option Pattern
  replacer : Option (Replacer σ)

/-- A rule with both parts. -/
def Rule.of {σ : Type} (pattern : Pattern) (replacer : Replacer σ) : Rule σ :=
  ⟨some pattern, some replacer⟩

namespace Replacing

variable {σ : Type}

/-- Deletes the instruction. -/
def deleteInstr : Replacer σ := fun id _ => do
  scheduleDelete id
  return true

/-- Deletes the instruction if nothing uses it, and declines otherwise. -/
def deleteUnused : Replacer σ := fun id _ => do
  if (← program).hasUses (.instr id) then return false
  scheduleDelete id
  return true

/-- What a rule's pattern records at an instruction. -/
def match? (r : Rule σ) (p : Program) (id : InstrId) : Option Captures :=
  r.pattern.bind fun q => q.match? p (.instr id) []

/-- Lets a rule's replacer decide. What it schedules and then declines is dropped. -/
def offer (r : Rule σ) (id : InstrId) (c : Captures) : Replacing σ Bool := do
  match r.replacer with
  | none => return false
  | some f =>
    let before := (← get).scheduled.length
    if ← f id c then return true
    modify fun s => { s with scheduled := s.scheduled.take before }
    return false

/-- Tries rules in order until one accepts. -/
def firstAccepting (id : InstrId) : List (Rule σ) → Replacing σ Bool
  | [] => return false
  | r :: rest => do
    match match? r (← program) id with
    | none => firstAccepting id rest
    | some c =>
      if ← offer r id c then return true
      firstAccepting id rest

/-- Tries a rule set on an instruction; says whether a rule accepted. -/
def applyFirst (rules : List (Rule σ)) (id : InstrId) : Replacing σ Bool := do
  if ((← program).instr id).erased then return false
  firstAccepting id rules

end Replacing

/-! ## 3. Carrying the schedule out -/

/-- The first member that stands earlier in the list already. -/
def firstRepeated? : (seen : List InstrId) → List InstrId → Option InstrId
  | _, [] => none
  | seen, id :: rest => if seen.contains id then some id else firstRepeated? (id :: seen) rest

namespace Program

/-- Takes an instruction away and leaves the undefined value where it was used. -/
def deleteInstr (p : Program) (id : InstrId) : Except ProgramError Program :=
  let undefined := Value.undef (p.instr id).ty
  (if p.hasUses (.instr id) then p.replaceUses (.instr id) undefined else p).eraseInstr id

/-- Carries one replacement out. -/
def replaceOne (p : Program) (r : Replacement) : Except ProgramError Program :=
  match r.new with
  | some new => p.replaceInstr r.old new
  | none => p.deleteInstr r.old

/-- Carries replacements out in the order given and counts them. An instruction that is gone by
    then is passed over. -/
def replaceEach : List Replacement → Edit Nat
  | [] => return 0
  | r :: rest => do
    if ((← get).instr r.old).erased then replaceEach rest
    else do
      Edit.attempt (·.replaceOne r)
      return (← replaceEach rest) + 1

end Program

/-- A change of a program that can fail. -/
abbrev Compile := EStateM CompileError Program

/-- Runs edits of the program. -/
def Compile.edit {α : Type} (e : Edit α) : Compile α := fun p =>
  match e p with
  | .ok a q => .ok a q
  | .error cause q => .error (.program cause) q

/-- Carries a schedule out, the last entry first, and counts the instructions that went. A schedule
    that names an instruction twice is refused as a whole. -/
def carryOut (rs : List Replacement) : Compile Nat := do
  match firstRepeated? [] (rs.map (·.old)) with
  | some id => throw (.replacementConflict id)
  | none => Compile.edit (Program.replaceEach rs.reverse)

end QirProfile
