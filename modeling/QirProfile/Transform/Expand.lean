import QirProfile.ControlFlow
import QirProfile.ExecutionPath
import QirProfile.Program.Edit
import QirProfile.Program.Specialise
import QirProfile.Transform.Settings

/-!
# A copy of its own for each call

Every call of a defined function on the execution path is turned to a copy of that function with
the constant arguments built in. The copy is folded, which settles branches on those arguments, and
the walk goes on into it. A function whose calls have all been turned to copies is erased.
-/

namespace QirProfile

/-- Runs a change of the program as a step of a walk. -/
def Walk.compile {τ α : Type} (f : Compile α) : Walk τ α := fun s =>
  match f s.program with
  | .ok a p => .ok a { s with program := p }
  | .error e p => .error e { s with program := p }

namespace TransformSettings

/-- How the settings let the execution path be walked. -/
def limits (s : TransformSettings) : WalkLimits := ⟨s.maxRecursion, s.assumeNoExcept⟩

/-- The entry points of a program. -/
def entryPoints (s : TransformSettings) (p : Program) : List FuncId :=
  p.functionsWithAttribute s.entryPointAttr

end TransformSettings

namespace Transform

/-- The call of a defined function that can be given a copy: its tail marker and its callee. -/
def expandable? (p : Program) (i : Instr) : Option (TailMarker × FuncId) :=
  match i.kind, i.calledFunction? with
  | .call marker, some callee =>
    let f := p.func callee
    if f.isDeclaration || f.varArg || f.params.length != i.arguments.length then none
    else some (marker, callee)
  | _, _ => none

/-- The arguments that are integer constants, with their positions. -/
def constantArguments (args : List Value) : List (Nat × Value) :=
  args.zipIdx.filterMap fun (v, k) => if v.toInt?.isSome then some (k, v) else none

/-- Whether no use of a function is left but doomed calls and its own recursion. -/
def isSpent (p : Program) (doomed : List InstrId) (f : FuncId) : Bool :=
  (p.usersOf (.func f)).all fun
    | .instr user => doomed.contains user || p.functionOf? user == some f
    | .global _ => false

/-- Turns a call to a copy of its callee and gives the new call. The visitor counts the copies. -/
def specialiseCall (s : TransformSettings) : Visitor Nat := fun v => do
  match v with
  | .instr id =>
    let p ← Walk.program
    let i := p.instr id
    match expandable? p i with
    | none => return some v
    | some (marker, callee) =>
      let remaining := i.arguments.filter fun a => a.toInt?.isNone
      let copy ← Walk.edit (Edit.tryMake (·.specialise callee (constantArguments i.arguments)))
      let draft := (← Walk.program).draftCall copy remaining none
      let call ← Walk.edit (Edit.insert (.before id) draft)
      Walk.edit (modify (·.takeName id call))
      Walk.edit (Edit.attempt (·.setKind call (.call marker)))
      Walk.edit (modify (·.replaceUses (.instr id) (.instr call)))
      Walk.doom id
      modify fun t => { t with extra := t.extra + 1 }
      _ ← Walk.compile (foldControlFlow (Replacing.controlFlowRules s.assumeNoExcept) copy)
      let t ← get
      if isSpent t.program t.doomed callee &&
          !(t.program.func callee).hasAttribute s.entryPointAttr then
        Walk.edit (Edit.attempt (·.eraseFunction callee))
      return some (.instr call)
  | _ => return some v

/-- Folds and walks the entry points, and gives each call its copy. -/
def expandEntries (s : TransformSettings) : List FuncId → Walk Nat Unit
  | [] => return ()
  | entry :: rest => do
    _ ← Walk.compile (foldControlFlow (Replacing.controlFlowRules s.assumeNoExcept) entry)
    _ ← Walk.walk s.limits (specialiseCall s) entry
    expandEntries s rest

/-- Gives every call on the execution path a copy of its own; counts the copies. -/
def specialiseCalls (s : TransformSettings) : Compile Nat := fun p =>
  match expandEntries s (s.entryPoints p) { program := p, extra := 0 } with
  | .ok _ t => .ok t.extra t.program
  | .error e t => .error e t.program

end Transform

end QirProfile
