import QirProfile.Fold
import QirProfile.Program.Edit

/-!
# Clean-up of a program

Four simplifications of whole programs: constant folding in every function, removal of unused
instructions that do nothing, removal of unused declarations, and static addresses written as
constants where they are used.
-/

namespace QirProfile

/-- Which simplifications are run. -/
structure CleanupSettings where
  constantFolding : Bool := true
  eliminateDeadInstructions : Bool := true
  stripUnusedDeclarations : Bool := true
  inlineStaticAddresses : Bool := true
  deriving DecidableEq

namespace Cleanup

/-- All instructions of live functions. -/
def attachedInstrs (p : Program) : List InstrId := p.liveFunctions.flatMap p.instrsOf

/-- Erases instructions one after the other. -/
def eraseInstrs (ids : List InstrId) : Edit Unit :=
  ids.forM fun id => Edit.attempt (·.eraseInstr id)

/-! ## 1. Constant folding -/

/-- Folds every function. -/
def foldAll : Edit Unit := do
  (← get).liveFunctions.forM fun f => discard (Edit.tryMake (·.foldConstants f))

/-! ## 2. Dead instructions -/

/-- Whether an instruction does nothing and its result is not used. -/
def isDead (p : Program) (id : InstrId) : Bool :=
  let i := p.instr id
  !i.kind.hasSideEffects && !i.ty.isVoid && !p.hasUses (.instr id)

/-- Rounds of erasing dead instructions, until there are none. Each round but the last erases
    one. -/
def eliminateRounds : (fuel : Nat) → Edit Unit
  | 0 => return ()
  | fuel + 1 => do
    let p ← get
    let dead := (attachedInstrs p).filter (isDead p)
    if dead.isEmpty then return ()
    eraseInstrs dead
    eliminateRounds fuel

/-- Erases dead instructions, also those that were used by dead ones only. -/
def eliminateDead : Edit Unit := do
  eliminateRounds ((attachedInstrs (← get)).length + 1)

/-! ## 3. Unused declarations -/

/-- Declarations that nothing refers to. -/
def unusedDeclarations (p : Program) : List FuncId :=
  p.liveFunctions.filter fun f => (p.func f).isDeclaration && !p.hasUses (.func f)

/-- Erases unused declarations. -/
def stripUnused : Edit Unit := do
  (unusedDeclarations (← get)).forM fun f => Edit.attempt (·.eraseFunction f)

/-! ## 4. Static addresses -/

/-- The constant that an address computed from a constant is. -/
def staticAddress? (i : Instr) : Option Value :=
  match i.kind, i.operands with
  | .cast op, v :: _ =>
    if (op = .inttoptr ∨ op = .bitcast) ∧ v.isConstant then some (.cast op v i.ty) else none
  | _, _ => none

/-- Puts the constant in the place of an address, if it is one; says whether it was. -/
def inlineInstr (id : InstrId) : Edit Bool := do
  match staticAddress? ((← get).instr id) with
  | none => return false
  | some v =>
    modify (·.replaceUses (.instr id) v)
    Edit.attempt (·.eraseInstr id)
    return true

/-- Goes over instructions once; says whether one was an address. -/
def inlineEach : List InstrId → Edit Bool
  | [] => return false
  | id :: rest => do
    let here ← inlineInstr id
    let later ← inlineEach rest
    return here || later

/-- Goes over functions once; says whether an instruction was an address. -/
def inlineFunctions : List FuncId → Edit Bool
  | [] => return false
  | f :: rest => do
    let here ← inlineEach ((← get).instrsOf f)
    let later ← inlineFunctions rest
    return here || later

/-- Rounds over the program, until no address is left. Each round but the last erases one. -/
def inlineRounds : (fuel : Nat) → Edit Unit
  | 0 => return ()
  | fuel + 1 => do
    if ← inlineFunctions (← get).liveFunctions then inlineRounds fuel

/-- Writes static addresses as constants where they are used. -/
def inlineAddresses : Edit Unit := do
  inlineRounds ((attachedInstrs (← get)).length + 1)

end Cleanup

end QirProfile
