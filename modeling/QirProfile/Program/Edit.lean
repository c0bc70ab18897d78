import QirProfile.Program.Basic

/-!
# Edits of a program

Every edit is a function from programs to programs. One that can be refused answers in `Except`,
and a refused edit leaves no trace. `Edit` strings edits together: the program as it stands when a
later step fails is kept.
-/

namespace QirProfile

namespace Program

/-! ## 1. Changing single nodes -/

/-- Changes one function. -/
def updateFunc (p : Program) (id : FuncId) (f : Func → Func) : Program :=
  { p with functions := p.functions.modify id.index f }

/-- Changes one block. -/
def updateBlock (p : Program) (id : BlockId) (f : Block → Block) : Program :=
  { p with blocks := p.blocks.modify id.index f }

/-- Changes one instruction. -/
def updateInstr (p : Program) (id : InstrId) (f : Instr → Instr) : Program :=
  { p with instrs := p.instrs.modify id.index f }

/-! ## 2. Named types -/

/-- Gives the first entry of the name its body; nothing where no entry has the name. -/
def giveBody? (name : String) (body : Option Ty) :
    List (String × Option Ty) → Option (List (String × Option Ty))
  | [] => none
  | (n, old) :: rest =>
    if n == name then some ((n, body.or old) :: rest)
    else (giveBody? name body rest).map ((n, old) :: ·)

/-- Declares a named type. A body given later replaces an earlier one, and no body changes
    nothing. -/
def addNamedType (p : Program) (name : String) (body : Option Ty) : Program :=
  { p with namedTypes := (giveBody? name body p.namedTypes).getD (p.namedTypes ++ [(name, body)]) }

/-! ## 3. Functions and globals -/

/-- Whether a function or a global has this name. -/
def isTaken (p : Program) (name : String) : Bool :=
  (p.findFunction? name).isSome || (p.findGlobal? name).isSome

/-- Adds a function at the end, whatever its name. -/
def pushFunction (p : Program) (f : Func) : Program × FuncId :=
  ({ p with functions := p.functions.push f }, ⟨p.functions.size⟩)

/-- Declares a function under a name that nothing else has. -/
def addFunction (p : Program) (name : String) (sig : Signature) (names : List (Option String)) :
    Except ProgramError (Program × FuncId) :=
  if p.isTaken name then .error (.duplicateSymbol name)
  else .ok (p.pushFunction (Func.declare name sig names))

/-- The function of this name, declared if there is none. Globals are not asked. -/
def ensureFunction (p : Program) (name : String) (sig : Signature) : Program × FuncId :=
  match p.findFunction? name with
  | some id => (p, id)
  | none => p.pushFunction (Func.declare name sig [])

/-- The names of all live functions and globals. -/
def takenNames (p : Program) : List String :=
  p.liveFunctions.map (fun id => (p.func id).name) ++ p.globalIds.map fun id => (p.global id).name

/-- The first of `base.n`, `base.(n+1)`, … that is not taken. A name that was tried and found
    taken leaves the list, since no later candidate can equal it; so the list runs out in time. -/
def freshName (base : String) : (fuel : Nat) → Nat → List String → String
  | 0, n, _ => base ++ "." ++ toString n
  | fuel + 1, n, taken =>
    let candidate := base ++ "." ++ toString n
    if taken.contains candidate then freshName base fuel (n + 1) (taken.erase candidate)
    else candidate

/-- A name derived from `base` that no function or global has. -/
def freshFunctionName (p : Program) (base : String) : String :=
  let taken := p.takenNames
  if taken.contains base then freshName base taken.length 1 taken else base

/-- Adds a global under a name that nothing else has. -/
def addGlobal (p : Program) (g : Global) : Except ProgramError (Program × GlobalId) :=
  if p.isTaken g.name then .error (.duplicateSymbol g.name)
  else .ok ({ p with globals := p.globals.push g }, ⟨p.globals.size⟩)

/-- Replaces the initial value of a global. -/
def setInitializer (p : Program) (id : GlobalId) (init : Option Value) : Program :=
  { p with globals := p.globals.modify id.index ({ · with initializer := init }) }

/-! ## 4. Blocks -/

/-- Appends an empty block to a function. -/
def appendBlock (p : Program) (f : FuncId) (name : Option String) : Program × BlockId :=
  let id : BlockId := ⟨p.blocks.size⟩
  let p := { p with blocks := p.blocks.push { name := name, parent := some f } }
  (p.updateFunc f fun fn => { fn with blocks := fn.blocks ++ [id] }, id)

/-- Renames a block. -/
def setBlockName (p : Program) (id : BlockId) (name : Option String) : Program :=
  p.updateBlock id ({ · with name := name })

/-! ## 5. Instructions -/

/-- Creates an instruction that stands in no block. -/
def createInstr (p : Program) (kind : InstrKind) (ty : Ty) (operands : List Value) :
    Program × InstrId :=
  ({ p with instrs := p.instrs.push { kind := kind, ty := ty, operands := operands } },
    ⟨p.instrs.size⟩)

/-- Names an instruction's result, or leaves it unnamed. -/
def setInstrName (p : Program) (id : InstrId) (name : Option String) : Program :=
  p.updateInstr id ({ · with name := name })

/-- Refuses an erased instruction. -/
def requireLive (p : Program) (id : InstrId) : Except ProgramError Unit :=
  if (p.instr id).erased then .error (.erasedInstruction id) else .ok ()

/-- Refuses an instruction that is erased or stands in a block. -/
def requireDetached (p : Program) (id : InstrId) : Except ProgramError Unit := do
  p.requireLive id
  if (p.instr id).parent.isSome then .error (.alreadyAttached id) else .ok ()

/-- Overwrites one operand. -/
def setOperand (p : Program) (id : InstrId) (index : Nat) (v : Value) :
    Except ProgramError Program := do
  p.requireLive id
  if index < (p.instr id).operands.length then
    .ok (p.updateInstr id fun i => { i with operands := i.operands.set index v })
  else .error (.invalidOperand id index)

/-- Replaces what an instruction does, and keeps its operands. -/
def setKind (p : Program) (id : InstrId) (kind : InstrKind) : Except ProgramError Program := do
  p.requireLive id
  .ok (p.updateInstr id ({ · with kind := kind }))

/-- Replaces all operands. -/
def setOperands (p : Program) (id : InstrId) (operands : List Value) :
    Except ProgramError Program := do
  p.requireLive id
  .ok (p.updateInstr id ({ · with operands := operands }))

/-- Puts a detached instruction at the end of a block. -/
def appendInstr (p : Program) (b : BlockId) (id : InstrId) : Except ProgramError Program := do
  p.requireDetached id
  if (p.block b).erased then .error (.erasedBlock b)
  else
    .ok ((p.updateBlock b fun bb => { bb with instrs := bb.instrs ++ [id] }).updateInstr id
      ({ · with parent := some b }))

/-- The block of an instruction and its place there. -/
def positionOf (p : Program) (id : InstrId) : Except ProgramError (BlockId × Nat) := do
  p.requireLive id
  match (p.instr id).parent with
  | none => .error (.detachedInstruction id)
  | some b =>
    match (p.block b).instrs.idxOf? id with
    | none => .error (.detachedInstruction id)
    | some i => .ok (b, i)

/-- Puts a detached instruction beside `anchor`, `offset` places after it. -/
def insertBeside (p : Program) (anchor id : InstrId) (offset : Nat) :
    Except ProgramError Program := do
  p.requireDetached id
  let (b, i) ← p.positionOf anchor
  .ok ((p.updateBlock b fun bb => { bb with instrs := bb.instrs.insertIdx (i + offset) id })
    |>.updateInstr id ({ · with parent := some b }))

/-- Puts a detached instruction right before `anchor`. -/
def insertBefore (p : Program) (anchor id : InstrId) : Except ProgramError Program :=
  p.insertBeside anchor id 0

/-- Puts a detached instruction right after `anchor`. -/
def insertAfter (p : Program) (anchor id : InstrId) : Except ProgramError Program :=
  p.insertBeside anchor id 1

/-- Takes an instruction out of its block and erases it. Uses of it stay as they are. -/
def eraseInstr (p : Program) (id : InstrId) : Except ProgramError Program := do
  p.requireLive id
  let q :=
    match (p.instr id).parent with
    | some b => p.updateBlock b fun bb => { bb with instrs := bb.instrs.filter (· != id) }
    | none => p
  .ok (q.updateInstr id ({ · with parent := none, erased := true, name := none }))

/-- Moves a name from one instruction to another. -/
def takeName (p : Program) (source target : InstrId) : Program :=
  let name := (p.instr source).name
  (p.setInstrName source none).setInstrName target name

/-! ## 6. Erasing blocks and functions

A block goes with the instructions it holds, a function with its blocks. What referred to them
stays as it is. -/

/-- Erases a block and the instructions in it. -/
def eraseBlock (p : Program) (id : BlockId) : Except ProgramError Program :=
  let b := p.block id
  if b.erased then .error (.erasedBlock id)
  else
    let p := b.instrs.foldl
      (fun p i => p.updateInstr i ({ · with parent := none, erased := true })) p
    let p :=
      match b.parent with
      | some f => p.updateFunc f fun fn => { fn with blocks := fn.blocks.filter (· != id) }
      | none => p
    .ok (p.updateBlock id ({ · with parent := none, instrs := [], erased := true }))

/-- Erases a function with its blocks. Its name is free again. -/
def eraseFunction (p : Program) (id : FuncId) : Except ProgramError Program := do
  let f := p.func id
  if f.erased then .error (.erasedFunction id)
  else
    let p ← f.blocks.foldlM eraseBlock p
    .ok (p.updateFunc id ({ · with erased := true }))

end Program

/-! ## 7. Edits in sequence -/

/-- A sequence of edits. -/
abbrev Edit := EStateM ProgramError Program

namespace Edit

/-- An edit that can be refused. -/
def attempt (f : Program → Except ProgramError Program) : Edit Unit := fun p =>
  match f p with
  | .ok q => .ok () q
  | .error e => .error e p

/-- An edit that makes something. -/
def make {α : Type} (f : Program → Program × α) : Edit α := fun p =>
  let (q, a) := f p
  .ok a q

/-- A refusable edit that makes something. -/
def tryMake {α : Type} (f : Program → Except ProgramError (Program × α)) : Edit α := fun p =>
  match f p with
  | .ok (q, a) => .ok a q
  | .error e => .error e p

end Edit

end QirProfile
