import QirProfile.Assembly.Units
import QirProfile.Program.Edit

/-!
# From trees to programs

Globals and functions are entered first, so that every symbol can be used before its definition.
The body of a function is entered in the same way: blocks and instructions first, then operands.

Parameters and entry blocks without a symbol take the next number: parameters count from zero, a
numbered one sets the count behind its number, and an entry block takes the number behind the last
parameter.
-/

namespace QirProfile.Assembly

/-! ## 1. Names in scope -/

/-- Local symbols of one function body. -/
structure Scope where
  /-- How messages name the function. -/
  function : String
  values : List (String × Value) := []
  blocks : List (String × BlockId) := []

/-- Everything a value can refer to. -/
structure Names where
  program : Program
  /-- Globals and functions. -/
  symbols : List (String × Value)
  /-- The function body at hand, if there is one. -/
  scope : Option Scope := none

/-- The value of a local symbol. -/
def Names.local (names : Names) (symbol : Symbol) : Except ReadError Value :=
  match names.scope with
  | none => .error (.undefinedSymbol ("%" ++ symbol.key) "module scope")
  | some scope =>
    match scope.values.lookup symbol.key with
    | some v => .ok v
    | none => .error (.undefinedSymbol ("%" ++ symbol.key) scope.function)

/-- The value of a global symbol. -/
def Names.global (names : Names) (symbol : Symbol) : Except ReadError Value :=
  match names.symbols.lookup symbol.key with
  | some v => .ok v
  | none => .error (.undefinedSymbol ("@" ++ symbol.key) "module scope")

/-- The block of a label. -/
def Scope.block (scope : Scope) (symbol : Symbol) : Except ReadError BlockId :=
  match scope.blocks.lookup symbol.key with
  | some b => .ok b
  | none => .error (.undefinedSymbol ("%" ++ symbol.key) scope.function)

/-! ## 2. Values -/

/-- An integer literal as a word: it must fit 64 bits, with or without sign. -/
def payload (v : Int) : Except ReadError Int :=
  if Word.isSigned v || (0 ≤ v && v < span 64) then .ok (Word.normalize v 64)
  else .error (.integerOutOfRange 0 v)

mutual

/-- The value that a term stands for where a value of the type is expected. -/
def resolveTerm (names : Names) (ty : Ty) : Term → Except ReadError Value
  | .local symbol => names.local symbol
  | .global symbol => names.global symbol
  | .int v => return .ofInt (ty.width?.getD 64) (← payload v)
  | .bool b => return .ofBool b
  | .float bits => return .float ty bits
  | .null => return .null ty
  | .undef => return .undef ty
  | .zero => return .zero ty
  | .bytes data => return .bytes data
  | .array elements => return .array ty (← resolveAll names elements)
  | .struct fields => return .struct ty (← resolveAll names fields)
  | .cast op value target => return .cast op (← resolveTyped names value) target
  | .gep inbounds source base indices => do
    let indices ← resolveAll names indices
    let base ← resolveTyped names base
    return .gep inbounds source base indices (names.program.gepTy source indices)

/-- The value that a typed term stands for. -/
def resolveTyped (names : Names) : TypedTerm → Except ReadError Value
  | .mk ty term => resolveTerm names ty term

/-- The values that typed terms stand for. -/
def resolveAll (names : Names) : List TypedTerm → Except ReadError (List Value)
  | [] => .ok []
  | t :: ts => do
    let v ← resolveTyped names t
    return v :: (← resolveAll names ts)

end

/-! ## 3. Instructions -/

/-- An index as far as it is known before names are resolved. -/
def staticIndex (t : TypedTerm) : Value :=
  match t.term, t.ty.width? with
  | .int v, some bits => .ofInt bits ((payload v).toOption.getD 0)
  | _, _ => .undef t.ty

/-- What an operation does and the type of its result. -/
def Operation.kindAndTy (p : Program) : Operation → InstrKind × Ty
  | ret _ => (.ret, .void)
  | br _ | condBr _ _ _ => (.br, .void)
  | switch _ _ _ => (.switch, .void)
  | unreachable => (.unreachable, .void)
  | call marker result _ _ => (.call marker, result)
  | invoke result _ _ _ _ => (.invoke, result)
  | binary op ty _ _ => (.binary op, ty)
  | icmp pred _ _ _ => (.icmp pred, .bool)
  | cast op _ target => (.cast op, target)
  | load ty _ align => (.load align, ty)
  | store _ _ align => (.store align, .void)
  | alloca ty align => (.alloca ty align, .ptr ty)
  | gep inbounds source _ indices =>
    (.gep source inbounds, p.gepTy source (indices.map staticIndex))
  | select _ ifTrue _ => (.select, ifTrue.ty)
  | phi ty _ => (.phi [], ty)

/-- The operands of an operation, and the incoming blocks of a phi. -/
def Operation.operands (names : Names) (scope : Scope) :
    Operation → Except ReadError (List Value × List BlockId)
  | ret none | unreachable | alloca _ _ => return ([], [])
  | ret (some value) => return ([← resolveTyped names value], [])
  | br dest => return ([.block (← scope.block dest)], [])
  | condBr cond ifTrue ifFalse => do
    let cond ← resolveTyped names cond
    let ifFalse ← scope.block ifFalse
    let ifTrue ← scope.block ifTrue
    return ([cond, .block ifFalse, .block ifTrue], [])
  | switch cond default cases => do
    let cond ← resolveTyped names cond
    let default ← scope.block default
    let cases ← cases.mapM fun (value, dest) => do
      let value ← resolveTyped names value
      return [value, .block (← scope.block dest)]
    return (cond :: .block default :: cases.flatten, [])
  | call _ _ callee args => do
    let args ← resolveAll names args
    return (args ++ [← resolveTerm names .void callee], [])
  | invoke _ callee args normal unwind => do
    let args ← resolveAll names args
    let normal ← scope.block normal
    let unwind ← scope.block unwind
    return (args ++ [.block normal, .block unwind, ← resolveTerm names .void callee], [])
  | binary _ ty lhs rhs | icmp _ ty lhs rhs => do
    let lhs ← resolveTerm names ty lhs
    return ([lhs, ← resolveTerm names ty rhs], [])
  | cast _ value _ => return ([← resolveTyped names value], [])
  | load _ ptr _ => return ([← resolveTyped names ptr], [])
  | store value ptr _ => return (← resolveAll names [value, ptr], [])
  | gep _ _ base indices => return (← resolveAll names (base :: indices), [])
  | select cond ifTrue ifFalse => return (← resolveAll names [cond, ifTrue, ifFalse], [])
  | phi ty incoming => do
    let pairs ← incoming.mapM fun (value, block) => do
      let value ← resolveTerm names ty value
      return (value, ← scope.block block)
    return (pairs.map (·.1), pairs.map (·.2))

/-! ## 4. Function bodies -/

/-- Enters the parameters from the given position on; gives the next free number as well. -/
def enterParams (f : FuncId) :
    (index slot : Nat) → List (Ty × Option Symbol) → Except ReadError (List (String × Value) × Nat)
  | _, slot, [] => .ok ([], slot)
  | index, slot, (_, symbol) :: rest => do
    let (key, slot) ← match symbol with
      | some (.named name) => pure (name, slot)
      | some (.numbered n) =>
        if n + 1 < span 32 then pure (toString n, n + 1) else .error .slotOverflow
      | none => if slot + 1 < span 32 then pure (toString slot, slot + 1) else .error .slotOverflow
    let (values, slot) ← enterParams f (index + 1) slot rest
    return (values ++ [(key, .arg f index)], slot)

/-- Enters the blocks of a function under their labels. -/
def enterBlocks (f : FuncId) (slot : Nat) :
    List BlockTree → Program × List (String × BlockId) →
      Except ReadError (Program × List (String × BlockId))
  | [], state => .ok state
  | b :: rest, (p, blocks) => do
    let label := b.label.getD (.numbered slot)
    let (p, id) := p.appendBlock f label.name?
    if (blocks.lookup label.key).isSome then .error (.duplicateDefinition ("%" ++ label.key))
    else enterBlocks f slot rest (p, (label.key, id) :: blocks)

/-- The state while instructions are entered: the program, the values in scope, and the
    instructions so far. -/
structure Entered where
  program : Program
  values : List (String × Value)
  instrs : List (InstrId × InstrTree) := []

/-- Enters one instruction at the end of a block, without operands. -/
def enterInstr (block : BlockId) (s : Entered) (tree : InstrTree) : Except ReadError Entered := do
  let (kind, ty) := tree.operation.kindAndTy s.program
  let (p, id) := s.program.createInstr kind ty []
  let p := p.setInstrName id (tree.result.bind Symbol.name?)
  let p ← (p.appendInstr block id).mapError .program
  let values ← match tree.result with
    | none => pure s.values
    | some symbol =>
      if (s.values.lookup symbol.key).isSome then
        .error (.duplicateDefinition ("%" ++ symbol.key))
      else pure ((symbol.key, .instr id) :: s.values)
  return ⟨p, values, s.instrs ++ [(id, tree)]⟩

/-- Gives an instruction its operands, and a phi its incoming blocks. -/
def fillInstr (names : Names) (scope : Scope) (p : Program) (id : InstrId) (tree : InstrTree) :
    Except ReadError Program := do
  let (operands, blocks) ← tree.operation.operands names scope
  let p ← (p.setOperands id operands).mapError .program
  match tree.operation with
  | .phi _ _ => (p.setKind id (.phi blocks)).mapError .program
  | _ => return p

/-- Enters the body of a function. -/
def enterBody (symbols : List (String × Value)) (p : Program) (f : FuncId) (tree : FuncTree) :
    Except ReadError Program := do
  let (params, slot) ← enterParams f 0 0 tree.params
  let (p, blocks) ← enterBlocks f slot tree.blocks (p, [])
  let ids := (p.func f).blocks
  let entered ← (tree.blocks.zip ids).foldlM
    (fun s (b, id) => b.instrs.foldlM (enterInstr id) s) ⟨p, params, []⟩
  let scope : Scope := ⟨"@" ++ tree.name, entered.values, blocks⟩
  let names : Names := ⟨entered.program, symbols, some scope⟩
  entered.instrs.foldlM (fun p (id, tree) => fillInstr names scope p id tree) entered.program

/-! ## 5. Programs -/

/-- Enters a global without its initial value. -/
def enterGlobal (p : Program) (tree : GlobalTree) : Except ReadError (Program × GlobalId) :=
  let name := tree.name.key
  (p.addGlobal
    { name := name, ty := tree.ty, linkage := tree.linkage, unnamedAddr := tree.unnamedAddr
      constant := tree.constant, align := tree.align }).mapError
    fun _ => .duplicateDefinition ("@" ++ name)

/-- The attributes of a function's groups, in order; of two groups of one number the later
    counts. -/
def groupAttributes (groups : List (Nat × List Attribute)) (function : String) (ids : List Nat) :
    Except ReadError (List Attribute) := do
  let found ← ids.mapM fun id =>
    match groups.reverse.lookup id with
    | some attributes => .ok attributes
    | none => .error (.undefinedSymbol ("#" ++ toString id) ("@" ++ function))
  return found.flatten

/-- Enters a function without its body. -/
def enterFunction (groups : List (Nat × List Attribute)) (p : Program) (tree : FuncTree) :
    Except ReadError (Program × FuncId) := do
  let sig : Signature := ⟨tree.ret, tree.params.map (·.1), tree.varArg⟩
  let names := tree.params.map fun (_, symbol) => symbol.bind Symbol.name?
  let (p, id) ← (p.addFunction tree.name sig names).mapError
    fun _ => .duplicateDefinition ("@" ++ tree.name)
  let shared ← groupAttributes groups tree.name tree.groups
  return (p.updateFunc id fun f =>
    (tree.attributes ++ shared).foldl Func.addAttribute
      { f with linkage := tree.linkage, unnamedAddr := tree.unnamedAddr }, id)

/-- Enters all globals, or all functions, and collects their handles. -/
def enterAll {τ ι : Type} (enter : Program → τ → Except ReadError (Program × ι)) :
    Program → List τ → Except ReadError (Program × List ι)
  | p, [] => .ok (p, [])
  | p, t :: ts => do
    let (p, id) ← enter p t
    let (p, ids) ← enterAll enter p ts
    return (p, id :: ids)

/-- The program of a tree. -/
def ProgramTree.resolve (tree : ProgramTree) : Except ReadError Program := do
  let p : Program :=
    { name := tree.sourceFile.getD "module"
      sourceFile := tree.sourceFile
      dataLayout := tree.dataLayout
      targetTriple := tree.targetTriple }
  let p := tree.namedTypes.foldl (fun p (name, body) => p.addNamedType name body) p
  let (p, globals) ← enterAll enterGlobal p tree.globals
  let (p, functions) ← enterAll (enterFunction tree.groups) p tree.functions
  let symbols :=
    (tree.globals.zip globals).map (fun (g, id) => (g.name.key, Value.global id)) ++
    (tree.functions.zip functions).map fun (f, id) => (f.name, Value.func id)
  let p ← (tree.globals.zip globals).foldlM (fun p (g, id) => do
    match g.initializer with
    | none => return p
    | some term =>
      let v ← resolveTerm ⟨p, symbols, none⟩ g.ty term
      return p.setInitializer id (some v)) p
  (tree.functions.zip functions).foldlM (fun p (f, id) =>
    if f.blocks.isEmpty then .ok p else enterBody symbols p id f) p

/-- The program of a text. -/
def read (source : String) : Except ReadError Program := do
  (← readTree source).resolve

end QirProfile.Assembly
