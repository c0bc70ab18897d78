import QirProfile.Program.Basic

/-!
# Checking the structure of a program

`problems` lists what is wrong with the functions of a program, in the order of functions, blocks,
instructions and operands: blocks that do not end as they should, phis out of place or out of step,
and operands that refer to something erased or to a part of another function.
-/

namespace QirProfile.Program

/-! ## 1. Operands -/

/-- What is wrong with an operand in a function. Inside a constant only the converted value and the
    base of an address are looked at. -/
def operandProblem? (p : Program) (f : FuncId) : Value → Option String
  | .instr id =>
    if (p.instr id).erased then some ("uses erased instruction " ++ id.text)
    else if p.functionOf? id ≠ some f then
      some ("uses instruction " ++ id.text ++ " from another function")
    else none
  | .block id =>
    if (p.block id).erased then some ("uses erased block " ++ id.text)
    else if (p.block id).parent ≠ some f then some ("branches to foreign block " ++ id.text)
    else none
  | .arg owner _ => if owner ≠ f then some "uses an argument of another function" else none
  | .func id => if (p.func id).erased then some ("uses erased function " ++ id.text) else none
  | .cast _ v _ => p.operandProblem? f v
  | .gep _ _ base _ _ => p.operandProblem? f base
  | _ => none

/-! ## 2. Instructions and blocks -/

/-- What is wrong with the phi of the given incoming blocks. -/
def phiProblems (p : Program) (f : FuncId) (i : Instr) (what label : String) (seenOther : Bool)
    (incoming : List BlockId) : List String :=
  (if seenOther then [what ++ " is not grouped at the top of block " ++ label] else []) ++
  (if incoming.length ≠ i.operands.length then
    [what ++ " has mismatched incoming values and blocks"] else []) ++
  incoming.filterMap fun b =>
    if (p.block b).erased ∨ (p.block b).parent ≠ some f then
      some (what ++ " refers to a block outside the function")
    else none

/-- What is wrong with one instruction of a block. `seenOther` says whether an instruction before
    it is no phi, `last` which one ends the block. -/
def instrProblems (p : Program) (f : FuncId) (b : BlockId) (label : String) (last : InstrId)
    (seenOther : Bool) (id : InstrId) : List String :=
  let i := p.instr id
  let what := "@" ++ (p.func f).name ++ ": " ++ p.label (.instr id)
  (if i.parent ≠ some b then [what ++ " has an inconsistent parent"] else []) ++
  (if i.isTerminator ∧ id ≠ last then
    [what ++ " is a terminator in the middle of block " ++ label] else []) ++
  (match i.kind with
    | .phi incoming => p.phiProblems f i what label seenOther incoming
    | _ => []) ++
  i.operands.filterMap fun v => (p.operandProblem? f v).map fun text => what ++ " " ++ text

/-- What is wrong with the instructions of a block from some point on. -/
def bodyProblems (p : Program) (f : FuncId) (b : BlockId) (label : String) (last : InstrId) :
    Bool → List InstrId → List String
  | _, [] => []
  | seenOther, id :: rest =>
    let isPhi := match (p.instr id).kind with
      | .phi _ => true
      | _ => false
    p.instrProblems f b label last seenOther id ++
      p.bodyProblems f b label last (seenOther || !isPhi) rest

/-- What is wrong with a block. -/
def blockProblems (p : Program) (f : FuncId) (b : BlockId) : List String :=
  let label := p.label (.block b)
  let name := (p.func f).name
  match (p.block b).terminator? with
  | none => ["@" ++ name ++ ": block " ++ label ++ " is empty"]
  | some last =>
    (if (p.instr last).isTerminator then []
      else ["@" ++ name ++ ": block " ++ label ++ " does not end with a terminator"]) ++
    p.bodyProblems f b label last false (p.block b).instrs

/-! ## 3. Programs -/

/-- Everything that is wrong with a program. -/
def problems (p : Program) : List String :=
  p.liveFunctions.flatMap fun f => (p.func f).blocks.flatMap (p.blockProblems f)

/-- Accepts a program without problems. -/
def verify (p : Program) : Except ProgramError Unit :=
  match p.problems with
  | [] => .ok ()
  | problems => .error (.verification problems)

end QirProfile.Program
