import QirProfile.ControlFlow
import QirProfile.ExecutionPath
import QirProfile.Program.Edit
import QirProfile.Transform.Expand

/-!
# Active and dead code

Active are the functions and blocks on the execution path of the roots. Roots are the entry points,
the functions that a global refers to, and the functions that an active block refers to; the search
goes on until no root is left. The rest is dead and is deleted. A phi of two edges, one of them
dead, gives way to the value on the other one.
-/

namespace QirProfile

/-- The functions and blocks found active. -/
structure ActiveCode where
  functions : List FuncId := []
  blocks : List BlockId := []

namespace ActiveCode

/-- Notes a value of the execution path. -/
def record (a : ActiveCode) : Value → ActiveCode
  | .func f =>
    { a with functions := if a.functions.contains f then a.functions else f :: a.functions }
  | .block b => { a with blocks := if a.blocks.contains b then a.blocks else b :: a.blocks }
  | _ => a

end ActiveCode

namespace Transform

/-! ## 1. Finding active code -/

/-- Notes what the walk reaches, and changes nothing. -/
def mark : Visitor ActiveCode := fun v => do
  modify fun t => { t with extra := t.extra.record v }
  return some v

/-- Whether a function is a root, given what is active so far. -/
def isRoot (s : TransformSettings) (p : Program) (a : ActiveCode) (f : FuncId) : Bool :=
  (p.func f).hasAttribute s.entryPointAttr ||
    (p.usersOf (.func f)).any fun
      | .global _ => true
      | .instr user => (p.instr user).parent.any a.blocks.contains

/-- Walks the roots in order and notes what they reach. -/
def markRoots (s : TransformSettings) : List FuncId → Walk ActiveCode Unit
  | [] => return ()
  | root :: rest => do
    modify fun t => { t with extra := t.extra.record (.func root) }
    _ ← Walk.walk s.limits mark root
    markRoots s rest

/-- Rounds of looking for roots among the functions not yet considered. Each round but the last
    considers one more function. -/
def markRounds (s : TransformSettings) : (fuel : Nat) → (considered : List FuncId) →
    Walk ActiveCode Unit
  | 0, _ => return ()
  | fuel + 1, considered => do
    let t ← get
    let roots := t.program.liveFunctions.filter fun f =>
      !considered.contains f && !t.visited.contains f && isRoot s t.program t.extra f
    if roots.isEmpty then return ()
    markRoots s roots
    markRounds s fuel (considered ++ roots)

/-- The active code of a program. -/
def activeCode (s : TransformSettings) (p : Program) : Except CompileError ActiveCode :=
  match markRounds s (p.functions.size + 1) [] { program := p, extra := {} } with
  | .ok _ t => .ok t.extra
  | .error e _ => .error e

/-! ## 2. Phis with a dead edge -/

/-- The value on the only active edge of a phi of two edges. -/
def activeInput? (a : ActiveCode) (i : Instr) : Option Value :=
  match i.kind, i.operands with
  | .phi [b, c], [v, w] =>
    match a.blocks.contains b, a.blocks.contains c with
    | true, false => some v
    | false, true => some w
    | _, _ => none
  | _, _ => none

/-- The phis that give way to a value, function by function. -/
def settledPhis (p : Program) (a : ActiveCode) : List (InstrId × Value) :=
  (p.liveFunctions.flatMap p.instrsOf).filterMap fun id =>
    (activeInput? a (p.instr id)).map fun v => (id, v)

/-- A value with the phis that are gone read as what they gave way to, the earliest first. -/
def settle (done : List (InstrId × Value)) (v : Value) : Value :=
  done.foldl (fun v (phi, w) => if v = .instr phi then w else v) v

/-- Puts values in the place of phis; `done` holds those that are gone already. -/
def replacePhis : (done : List (InstrId × Value)) → List (InstrId × Value) → Edit Unit
  | _, [] => return ()
  | done, (phi, w) :: rest => do
    let v := settle done w
    v.toInstr?.forM fun target => modify (·.takeName phi target)
    modify (·.replaceUses (.instr phi) v)
    Edit.attempt (·.eraseInstr phi)
    replacePhis (done ++ [(phi, v)]) rest

/-- Replaces the phis with a dead edge and counts them. -/
def replaceSettledPhis (a : ActiveCode) : Edit Nat := do
  let phis := settledPhis (← get) a
  replacePhis [] phis
  return phis.length

/-! ## 3. Deleting dead code -/

/-- Erases instructions in the order given and leaves the undefined value where they were used. -/
def eraseEach : List InstrId → Edit Unit
  | [] => return ()
  | id :: rest => do
    modify fun p => p.replaceUses (.instr id) (.undef (p.instr id).ty)
    Edit.attempt (·.eraseInstr id)
    eraseEach rest

/-- Empties a block, the last instruction first. -/
def emptyBlock (b : BlockId) : Edit Unit := do
  eraseEach ((← get).block b).instrs.reverse

/-- Deletes a function; its uses become undefined. -/
def deleteFunction (f : FuncId) : Edit Unit := do
  modify fun p => p.replaceUses (.func f) (.undef (p.valueTy (.func f)))
  ((← get).func f).blocks.reverse.forM emptyBlock
  Edit.attempt (·.eraseFunction f)

/-- Removes the edges that leave a block. -/
def cutEdges (b : BlockId) : Edit Unit := do
  let p ← get
  match (p.block b).terminator? with
  | none => return ()
  | some t => (p.instr t).successors.forM fun next => Edit.attempt (·.cutEdge next b)

/-- Erases those of the blocks that nothing refers to, and counts them. -/
def eraseUnused : List BlockId → Edit Nat
  | [] => return 0
  | b :: rest => do
    if (← get).hasUses (.block b) then eraseUnused rest
    else do
      Edit.attempt (·.eraseBlock b)
      return (← eraseUnused rest) + 1

/-- Defined functions that are not active. -/
def deadFunctions (p : Program) (a : ActiveCode) : List FuncId :=
  p.liveFunctions.filter fun f => !a.functions.contains f && !(p.func f).isDeclaration

/-- Blocks of active functions that are not active. -/
def deadBlocks (p : Program) (a : ActiveCode) : List BlockId :=
  (p.liveFunctions.filter a.functions.contains).flatMap fun f =>
    (p.func f).blocks.filter fun b => !a.blocks.contains b

/-- Deletes dead functions, and the dead blocks of active ones; counts both. -/
def deleteDeadCode (a : ActiveCode) : Edit (Nat × Nat) := do
  let p ← get
  let fs := deadFunctions p a
  let bs := deadBlocks p a
  fs.forM deleteFunction
  bs.forM cutEdges
  bs.reverse.forM emptyBlock
  return (fs.length, ← eraseUnused bs)

end Transform

end QirProfile
