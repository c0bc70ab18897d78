import QirProfile.Program.Edit

/-!
# Copies of functions with some arguments fixed

A copy drops the parameters that got a value, keeps the others in order, and has a block for each
block and an instruction for each instruction of its source. Operands are renamed at the top only:
what stands inside a constant is kept.
-/

namespace QirProfile

/-- How the names of a source function read in its copy. -/
structure Renaming where
  source : FuncId
  copy : FuncId
  /-- What each parameter of the source becomes. -/
  params : List Value
  /-- The blocks of the source in order, and the number of the first one of the copy. -/
  blocks : List BlockId
  firstBlock : Nat
  /-- The instructions of the source in order, and the number of the first one of the copy. -/
  instrs : List InstrId
  firstInstr : Nat

namespace Renaming

/-- The block of the copy for a block of the source; other blocks stay. -/
def block (r : Renaming) (b : BlockId) : BlockId :=
  match r.blocks.idxOf? b with
  | some i => ⟨r.firstBlock + i⟩
  | none => b

/-- An operand of the copy. -/
def value (r : Renaming) (v : Value) : Value :=
  match v with
  | .arg f i => if f = r.source then r.params.getD i v else v
  | .block b => .block (r.block b)
  | .instr id =>
    match r.instrs.idxOf? id with
    | some i => .instr ⟨r.firstInstr + i⟩
    | none => v
  | _ => v

/-- What an instruction of the copy does. -/
def kind (r : Renaming) : InstrKind → InstrKind
  | .phi blocks => .phi (blocks.map r.block)
  | k => k

/-- An instruction of the copy. -/
def instr (r : Renaming) (i : Instr) : Instr :=
  { i with
    kind := r.kind i.kind
    operands := i.operands.map r.value
    parent := i.parent.map r.block }

end Renaming

namespace Program

/-- The value given for a parameter; of two the later counts. -/
def givenFor? (constants : List (Nat × Value)) (index : Nat) : Option Value :=
  (constants.reverse.find? (·.1 == index)).map (·.2)

/-- What the parameters become: the given values, and for the others the copy's parameters. -/
def paramValues (copy : FuncId) (constants : List (Nat × Value)) :
    (index next : Nat) → List Param → List Value
  | _, _, [] => []
  | index, next, _ :: rest =>
    match givenFor? constants index with
    | some v => v :: paramValues copy constants (index + 1) next rest
    | none => .arg copy next :: paramValues copy constants (index + 1) (next + 1) rest

/-- Copies a function under a fresh name and fixes some of its arguments. Of several positions
    that are no parameter the least is reported. -/
def specialise (p : Program) (source : FuncId) (constants : List (Nat × Value)) :
    Except ProgramError (Program × FuncId) :=
  let f := p.func source
  if f.erased then .error (.erasedFunction source)
  else
    match ((constants.map (·.1)).filter (f.params.length ≤ ·)).min? with
    | some index => .error (.invalidArgument f.name index)
    | none =>
      let name := p.freshFunctionName f.name
      if p.isTaken name then .error (.duplicateSymbol name)
      else
        let copy : FuncId := ⟨p.functions.size⟩
        let kept := (f.params.zipIdx.filter fun (_, i) => (givenFor? constants i).isNone).map (·.1)
        let r : Renaming :=
          { source := source, copy := copy
            params := paramValues copy constants 0 0 f.params
            blocks := f.blocks, firstBlock := p.blocks.size
            instrs := p.instrsOf source, firstInstr := p.instrs.size }
        let newBlock (b : BlockId) : Block :=
          { name := (p.block b).name, parent := some copy
            instrs := (p.block b).instrs.map fun i => (r.value (.instr i)).toInstr?.getD i }
        .ok ({ p with
          functions := p.functions.push
            { f with
              name := name
              params := kept
              blocks := f.blocks.map r.block }
          blocks := p.blocks ++ (f.blocks.map newBlock).toArray
          instrs := p.instrs ++ (r.instrs.map fun i => r.instr (p.instr i)).toArray }, copy)

end Program

end QirProfile
