import QirProfile.Fold
import QirProfile.Rule.Basic

/-!
# Control flow that depends on constants only

A conditional branch on a constant becomes an unconditional one. Where exceptions are ruled out, an
invoke becomes a call and a branch to its normal destination. In both cases an edge of the control
flow disappears, and the phis at its end forget it.
-/

namespace QirProfile

/-! ## 1. Edges -/

namespace Program

/-- A phi without its entries for a block. Values without a block, and blocks without a value, are
    dropped too. Other instructions stay. -/
def forgetEntry (i : Instr) (source : BlockId) : Instr :=
  match i.kind with
  | .phi blocks =>
    let kept := (i.operands.zip blocks).filter (·.2 != source)
    { i with kind := .phi (kept.map (·.2)), operands := kept.map (·.1) }
  | _ => i

/-- Removes the edge from `source` to a block: its phis forget what came that way. -/
def cutEdge (p : Program) (b source : BlockId) : Except ProgramError Program :=
  if (p.block b).erased then .ok p
  else
    (p.block b).instrs.foldlM (fun p id =>
      match (p.instr id).kind with
      | .phi _ => do
        p.requireLive id
        return p.updateInstr id (forgetEntry · source)
      | _ => .ok p) p

end Program

/-! ## 2. Rules -/

namespace Replacing

variable {σ : Type}

/-- Replaces a branch on a constant by a branch to where it goes. -/
def settleBranch : Replacer σ := fun id c => do
  match c.int? "cond", c.block? "if_true", c.block? "if_false" with
  | some cond, some ifTrue, some ifFalse =>
    let (taken, dropped) := if cond ≠ 0 then (ifTrue, ifFalse) else (ifFalse, ifTrue)
    _ ← edit (Edit.insert (.before id) (Program.draftBr taken))
    if taken ≠ dropped then
      ((← program).instr id).parent.forM fun source =>
        edit (Edit.attempt (·.cutEdge dropped source))
    scheduleDelete id
    return true
  | _, _, _ => return false

/-- Replaces an invoke by a call and a branch to its normal destination. -/
def invokeToCall : Replacer σ := fun id _ => do
  let i := (← program).instr id
  match i.calledFunction?, i.invokeDestinations? with
  | some callee, some (normal, unwind) =>
    let call ← edit (Edit.insert (.before id) ((← program).draftCall callee i.arguments none))
    _ ← edit (Edit.insert (.before id) (Program.draftBr normal))
    change fun p => (p.takeName id call).replaceUses (.instr id) (.instr call)
    if unwind ≠ normal then
      i.parent.forM fun source => edit (Edit.attempt (·.cutEdge unwind source))
    scheduleDelete id
    return true
  | _, _ => return false

/-- The rules that fold control flow. Invokes are lowered where exceptions are ruled out. -/
def controlFlowRules (assumeNoExcept : Bool) : List (Rule σ) :=
  let branch := Pattern.branch (Pattern.constInt.as "cond") (Pattern.block.as "if_false")
    (Pattern.block.as "if_true")
  .of branch settleBranch :: if assumeNoExcept then [.of Pattern.invoke invokeToCall] else []

end Replacing

/-! ## 3. Folding a function -/

/-- Tries rules on instructions of a program one after the other and gives the schedule. -/
def scheduleAll (rules : List (Rule Unit)) (ids : List InstrId) : Compile (List Replacement) :=
  fun p =>
    let all := ids.forM fun id => discard (Replacing.applyFirst rules id)
    match all { program := p, extra := () } with
    | .ok _ s => .ok s.scheduled s.program
    | .error e s => .error e s.program

/-- Rounds of constant folding and control flow folding, until no rule accepts. Each round but the
    last takes a conditional branch or an invoke away. -/
def foldRounds (rules : List (Rule Unit)) (f : FuncId) : (fuel : Nat) → Compile Nat
  | 0 => return 0
  | fuel + 1 => do
    let folded ← Compile.edit (Edit.tryMake (·.foldConstants f))
    let schedule ← scheduleAll rules ((← get).instrsOf f)
    if schedule.isEmpty then return folded
    let removed ← carryOut schedule
    return folded + removed + (← foldRounds rules f fuel)

/-- Folds a function, values and control flow, until nothing folds; counts the instructions that
    went away. -/
def foldControlFlow (rules : List (Rule Unit)) (f : FuncId) : Compile Nat := do
  foldRounds rules f (((← get).instrsOf f).length + 1)

end QirProfile
