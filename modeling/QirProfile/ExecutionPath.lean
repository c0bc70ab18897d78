import QirProfile.CompileError
import QirProfile.Program.Edit

/-!
# Walking the execution path

From a function on, the blocks are visited in the order of their distance from the entry block, and
a call of a defined function is followed before the next instruction is looked at. No function is
walked twice. The visitor sees the function, then each block and each instruction of it; it may
change the program, and says which instruction stands in the place of the one it saw, or that the
instruction needs no further attention.

Instructions that the visitor dooms are erased once their function has been walked.
-/

namespace QirProfile

/-- The state of a walk; `extra` belongs to the visitor. -/
structure PathState (τ : Type) where
  program : Program
  visited : List FuncId := []
  /-- What is erased at the end of the function being walked. -/
  doomed : List InstrId := []
  extra : τ

/-- A step of a walk. What it has done stays when a later one fails. -/
abbrev Walk (τ : Type) := EStateM CompileError (PathState τ)

/-- What is done at each value on the path. -/
abbrev Visitor (τ : Type) := Value → Walk τ (Option Value)

/-- How far and where a walk goes. -/
structure WalkLimits where
  /-- How deep calls are followed. -/
  maxDepth : Nat
  /-- Whether an invoke counts as a call that returns normally. -/
  assumeNoExcept : Bool

/-- Blocks to be visited next, and all that ever stood there. -/
structure Frontier where
  queue : List BlockId
  queued : List BlockId

namespace Frontier

/-- The start of a walk through a function. -/
def start (entry : BlockId) : Frontier := ⟨[entry], [entry]⟩

/-- Queues a block that was never queued before. -/
def push (f : Frontier) (b : BlockId) : Frontier :=
  if f.queued.contains b then f else ⟨f.queue ++ [b], b :: f.queued⟩

end Frontier

namespace Walk

variable {τ α : Type}

/-- The program as it stands. -/
def program : Walk τ Program := return (← get).program

/-- Runs edits of the program. -/
def edit (e : Edit α) : Walk τ α := fun s =>
  match e s.program with
  | .ok a p => .ok a { s with program := p }
  | .error cause p => .error (.program cause) { s with program := p }

/-- Dooms an instruction. -/
def doom (id : InstrId) : Walk τ Unit :=
  modify fun s => { s with doomed := s.doomed ++ [id] }

/-- Where control goes from an instruction of a function. The unwind edge of an invoke is never
    taken; without leave to ignore it the walk ends. -/
def targets (limits : WalkLimits) (function : String) (i : Instr) :
    Except CompileError (List BlockId) :=
  match i.kind with
  | .br | .switch => .ok i.successors
  | .invoke =>
    if limits.assumeNoExcept then .ok (i.invokeDestinations?.toList.map (·.1))
    else .error (.exceptionPath function)
  | _ => .ok []

/-- Visits one instruction, follows what is called there, and queues where control goes. -/
def visitInstr (limits : WalkLimits) (visit : Visitor τ) (follow : FuncId → Walk τ Bool)
    (f : FuncId) (front : Frontier) (id : InstrId) : Walk τ Frontier := do
  if ((← program).instr id).erased then return front
  match ← visit (.instr id) with
  | none => return front
  | some current =>
    let p ← program
    match current.toInstr?.bind fun call => (p.instr call).calledFunction? with
    | some callee => discard (follow callee)
    | none => pure ()
    let p ← program
    match targets limits (p.func f).name (p.instr id) with
    | .ok bs => return bs.foldl Frontier.push front
    | .error e => throw e

/-- Visits a block and its instructions, as they stand when the block is reached. -/
def visitBlock (limits : WalkLimits) (visit : Visitor τ) (follow : FuncId → Walk τ Bool)
    (f : FuncId) (front : Frontier) (b : BlockId) : Walk τ Frontier := do
  if ((← program).block b).erased then return front
  _ ← visit (.block b)
  ((← program).block b).instrs.foldlM (visitInstr limits visit follow f) front

/-- Visits the queued blocks in order. Each block is queued once, so as many steps as there are
    blocks are enough. -/
def visitBlocks (limits : WalkLimits) (visit : Visitor τ) (follow : FuncId → Walk τ Bool)
    (f : FuncId) : (fuel : Nat) → Frontier → Walk τ Unit
  | 0, _ => return ()
  | fuel + 1, front =>
    match front.queue with
    | [] => return ()
    | b :: rest => do
      let front ← visitBlock limits visit follow f { front with queue := rest } b
      visitBlocks limits visit follow f fuel front

/-- Erases the doomed instructions that are still there. -/
def eraseDoomed : List InstrId → Walk τ Unit
  | [] => return ()
  | id :: rest => do
    unless ((← program).instr id).erased do edit (Edit.attempt (·.eraseInstr id))
    eraseDoomed rest

/-- Visits a function and its blocks. -/
def visitFunction (limits : WalkLimits) (visit : Visitor τ) (follow : FuncId → Walk τ Bool)
    (f : FuncId) : Walk τ Unit := do
  let p ← program
  match (p.func f).entryBlock? with
  | none => return ()
  | some entry =>
    _ ← visit (.func f)
    visitBlocks limits visit follow f (p.blocks.size + 1) (.start entry)

/-- Walks a function at most `depth` calls deep. The answer says whether it was walked at all: not
    if it is erased, only declared or walked before, nor if the depth is used up. -/
def walkWithin (limits : WalkLimits) (visit : Visitor τ) : (depth : Nat) → FuncId → Walk τ Bool
  | 0, _ => return false
  | depth + 1, f => do
    let s ← get
    let fn := s.program.func f
    if fn.erased || fn.isDeclaration || s.visited.contains f then return false
    set { s with visited := f :: s.visited, doomed := [] }
    visitFunction limits visit (walkWithin limits visit depth) f
    eraseDoomed (← get).doomed
    modify fun t => { t with doomed := s.doomed }
    return true

/-- Walks a function and everything it reaches. -/
def walk (limits : WalkLimits) (visit : Visitor τ) (f : FuncId) : Walk τ Bool :=
  walkWithin limits visit limits.maxDepth f

end Walk

end QirProfile
