import QirProfile.Program.Edit

/-!
# Uses of values

A value is used by the instructions and the globals whose operands or initial value mention it.
`replaceUses` reaches every live instruction, also one that stands in no block; `usersOf` lists
only those that do. `exchangeUses` does what `replaceUses` does and counts the users it has turned.
-/

namespace QirProfile

/-- What refers to a value. -/
inductive User where
  | instr (id : InstrId)
  | global (id : GlobalId)
  deriving DecidableEq

/-- How a user is written. -/
def User.text : User → String
  | instr id => id.text
  | global id => id.text

/-- Whether a global's initial value mentions the value. -/
def Global.uses (g : Global) (v : Value) : Bool :=
  g.initializer.any (Value.mentions v)

/-- Puts `new` in the place of `old` in a live instruction, and says whether `old` was there. -/
def Instr.exchange (old new : Value) (i : Instr) : Instr × Bool :=
  if i.erased then (i, false)
  else
    let (operands, changed) := Value.exchangeAll old new i.operands
    ({ i with operands := operands }, changed)

/-- Puts `new` in the place of `old` in a global, and says whether `old` was there. -/
def Global.exchange (old new : Value) (g : Global) : Global × Bool :=
  match g.initializer with
  | none => (g, false)
  | some v =>
    let (v, changed) := Value.exchange old new v
    ({ g with initializer := some v }, changed)

namespace Program

/-- Handles of all instructions, erased ones too, in order of creation. -/
def instrIds (p : Program) : List InstrId :=
  (List.range p.instrs.size).map InstrId.mk

/-- The users of a value: instructions in blocks first, then globals. -/
def usersOf (p : Program) (v : Value) : List User :=
  (p.instrIds.filter fun id =>
      let i := p.instr id
      !i.erased && i.parent.isSome && i.uses v).map User.instr ++
    (p.globalIds.filter fun id => (p.global id).uses v).map User.global

/-- Whether a value has users. -/
def hasUses (p : Program) (v : Value) : Bool :=
  p.instrs.any (fun i => !i.erased && i.parent.isSome && i.uses v) ||
    p.globals.any (·.uses v)

/-- Puts `new` in the place of `old` wherever it occurs. -/
def replaceUses (p : Program) (old new : Value) : Program :=
  { p with
    instrs := p.instrs.map fun i =>
      if !i.erased && i.uses old then
        { i with operands := i.operands.map (Value.substitute old new) }
      else i
    globals := p.globals.map fun g =>
      if g.uses old then { g with initializer := g.initializer.map (Value.substitute old new) }
      else g }

/-- How many live instructions and globals mention a value. -/
def useCount (p : Program) (v : Value) : Nat :=
  p.instrs.countP (fun i => !i.erased && i.uses v) + p.globals.countP (·.uses v)

/-- Puts `new` in the place of `old` wherever it occurs, and counts the instructions and globals
    that had it. -/
def exchangeUses (p : Program) (old new : Value) : Program × Nat :=
  let instrs := p.instrs.map (Instr.exchange old new)
  let globals := p.globals.map (Global.exchange old new)
  ({ p with instrs := instrs.map (·.1), globals := globals.map (·.1) },
    instrs.countP (·.2) + globals.countP (·.2))

/-- Puts the detached instruction `new` in the place of `old`: its position, its name and all its
    uses. `old` is erased. -/
def replaceInstr (p : Program) (old new : InstrId) : Except ProgramError Program := do
  let p ← p.insertBefore old new
  ((p.takeName old new).replaceUses (.instr old) (.instr new)).eraseInstr old

end Program

end QirProfile
