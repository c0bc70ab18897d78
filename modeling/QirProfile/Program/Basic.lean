import QirProfile.Value

/-!
# Programs

A program owns its functions, blocks, instructions and globals. Each kind is numbered in the order
of creation and referred to by handle; numbers are never used again. An erased node stays behind
as a tombstone, so that a stale handle is noticed. A handle that no node answers to reads as a
tombstone too.

An instruction stands in at most one block and names it as its parent, a block in at most one
function; `Block.instrs` and `Func.blocks` give the order.
-/

namespace QirProfile

/-! ## 1. Functions, blocks and globals -/

/-- An attribute of a function. -/
inductive Attribute where
  /-- A bare word, such as `nounwind`. -/
  | keyword (word : String)
  /-- A quoted key with an optional quoted value. -/
  | pair (key : String) (value : Option String)
  deriving DecidableEq, Repr

namespace Attribute

/-- The key of a pair, or the word itself. -/
def key : Attribute → String
  | keyword word => word
  | pair key _ => key

/-- How an attribute is written. -/
def text : Attribute → String
  | keyword word => word
  | pair key none => "\"" ++ key ++ "\""
  | pair key (some value) => "\"" ++ key ++ "\"=\"" ++ value ++ "\""

end Attribute

/-- A formal parameter. -/
structure Param where
  name : Option String
  ty : Ty
  deriving DecidableEq

/-- The signature of a function. -/
structure Signature where
  ret : Ty
  params : List Ty
  varArg : Bool := false
  deriving DecidableEq

/-- The type of functions with this signature. -/
def Signature.ty (s : Signature) : Ty := .func s.ret s.params s.varArg

/-- A function: a declaration, or a definition once it has blocks. -/
structure Func where
  name : String
  ret : Ty
  params : List Param
  varArg : Bool
  linkage : Option String := none
  unnamedAddr : Option String := none
  attributes : List Attribute := []
  /-- The blocks in order; the first one is the entry. -/
  blocks : List BlockId := []
  erased : Bool := false

namespace Func

/-- A declaration. Missing parameter names leave parameters unnamed, further ones are ignored. -/
def declare (name : String) (sig : Signature) (names : List (Option String)) : Func where
  name := name
  ret := sig.ret
  params := sig.params.zipIdx.map fun (ty, i) => ⟨names.getD i none, ty⟩
  varArg := sig.varArg

/-- The function's signature. -/
def signature (f : Func) : Signature :=
  ⟨f.ret, f.params.map (·.ty), f.varArg⟩

/-- Whether the function has no body. -/
def isDeclaration (f : Func) : Bool := f.blocks.isEmpty

/-- The block where execution starts. -/
def entryBlock? (f : Func) : Option BlockId := f.blocks.head?

/-- Whether an attribute has this key. -/
def hasAttribute (f : Func) (key : String) : Bool :=
  f.attributes.any (·.key == key)

/-- The value of the first pair with this key that has one. -/
def attributeValue? (f : Func) (key : String) : Option String :=
  f.attributes.findSome? fun
    | .pair k (some v) => if k == key then some v else none
    | _ => none

/-- Adds an attribute at the end and drops all others with its key. -/
def addAttribute (f : Func) (a : Attribute) : Func :=
  { f with attributes := f.attributes.filter (·.key != a.key) ++ [a] }

/-- What an unknown handle reads as. -/
def tombstone : Func := ⟨"", .void, [], false, none, none, [], [], true⟩

end Func

/-- A basic block. -/
structure Block where
  name : Option String
  parent : Option FuncId
  instrs : List InstrId := []
  erased : Bool := false

namespace Block

/-- The last instruction, which ends the block in a finished program. -/
def terminator? (b : Block) : Option InstrId := b.instrs.getLast?

/-- What an unknown handle reads as. -/
def tombstone : Block := ⟨none, none, [], true⟩

end Block

/-- A global variable; its own type is a pointer to `ty`. Globals are never erased. -/
structure Global where
  name : String
  ty : Ty
  linkage : Option String := none
  unnamedAddr : Option String := none
  constant : Bool := false
  initializer : Option Value := none
  align : Option Nat := none

/-- What an unknown handle reads as. -/
def Global.tombstone : Global := { name := "", ty := .void }

/-! ## 2. Instructions -/

/-- What an instruction does. -/
inductive InstrKind where
  | ret
  | br
  | switch
  | unreachable
  | call (marker : TailMarker)
  | invoke
  | binary (op : BinaryOp)
  | icmp (pred : Predicate)
  | cast (op : CastOp)
  | load (align : Option Nat)
  | store (align : Option Nat)
  | alloca (allocated : Ty) (align : Option Nat)
  | gep (source : Ty) (inbounds : Bool)
  | select
  /-- The incoming blocks stand here, the incoming values among the operands. -/
  | phi (blocks : List BlockId)
  deriving DecidableEq

namespace InstrKind

/-- The word the operation is written with. -/
def opcode : InstrKind → String
  | ret => "ret"
  | br => "br"
  | switch => "switch"
  | unreachable => "unreachable"
  | call _ => "call"
  | invoke => "invoke"
  | binary op => op.name
  | icmp _ => "icmp"
  | cast op => op.name
  | load _ => "load"
  | store _ => "store"
  | alloca _ _ => "alloca"
  | gep _ _ => "getelementptr"
  | select => "select"
  | phi _ => "phi"

/-- Whether the operation ends a block. -/
def isTerminator : InstrKind → Bool
  | ret | br | switch | unreachable | invoke => true
  | _ => false

/-- Whether dropping an unused instance could change what the program does. -/
def hasSideEffects : InstrKind → Bool
  | call _ | store _ => true
  | k => k.isTerminator

end InstrKind

/-- An instruction. The layout of its operands is:

    * `call`: arguments, then the callee;
    * `invoke`: arguments, normal destination, unwind destination, callee;
    * `br`: destination, or condition, false destination, true destination;
    * `switch`: condition, default destination, then a value and a destination for each case;
    * `store`: value, pointer;
    * `select`: condition, true value, false value;
    * `phi`: the incoming values. -/
structure Instr where
  kind : InstrKind
  ty : Ty
  operands : List Value
  name : Option String := none
  parent : Option BlockId := none
  erased : Bool := false

namespace Instr

/-- Whether the instruction ends a block. -/
def isTerminator (i : Instr) : Bool := i.kind.isTerminator

/-- Whether the instruction is a call. -/
def isCall (i : Instr) : Bool :=
  match i.kind with
  | .call _ => true
  | _ => false

/-- Whether the instruction is an invoke. -/
def isInvoke (i : Instr) : Bool :=
  match i.kind with
  | .invoke => true
  | _ => false

/-- What a call or invoke calls. -/
def callee? (i : Instr) : Option Value :=
  if i.isCall || i.isInvoke then i.operands.getLast? else none

/-- The function that a call or invoke calls by name. -/
def calledFunction? (i : Instr) : Option FuncId :=
  i.callee?.bind Value.toFunc?

/-- The arguments of a call or invoke. -/
def arguments (i : Instr) : List Value :=
  match i.kind with
  | .call _ => i.operands.take (i.operands.length - 1)
  | .invoke => i.operands.take (i.operands.length - 3)
  | _ => []

/-- The normal and the unwind destination of an invoke. -/
def invokeDestinations? (i : Instr) : Option (BlockId × BlockId) :=
  match i.kind, (i.operands.drop (i.operands.length - 3)) with
  | .invoke, [.block normal, .block unwind, _] => some (normal, unwind)
  | _, _ => none

/-- Where control may go from here. -/
def successors (i : Instr) : List BlockId :=
  match i.kind with
  | .br | .switch => i.operands.filterMap Value.toBlock?
  | .invoke =>
    match i.invokeDestinations? with
    | some (normal, unwind) => [normal, unwind]
    | none => []
  | _ => []

/-- The incoming blocks of a phi. -/
def phiBlocks (i : Instr) : List BlockId :=
  match i.kind with
  | .phi blocks => blocks
  | _ => []

/-- Whether one of the operands mentions the value. -/
def uses (i : Instr) (v : Value) : Bool :=
  i.operands.any (Value.mentions v)

/-- What an unknown handle reads as. -/
def tombstone : Instr := ⟨.unreachable, .void, [], none, none, true⟩

end Instr

/-! ## 3. Programs -/

/-- A program. -/
structure Program where
  name : String
  sourceFile : Option String := none
  dataLayout : Option String := none
  targetTriple : Option String := none
  /-- Named types in order of declaration, without a body where none was given. -/
  namedTypes : List (String × Option Ty) := []
  functions : Array Func := #[]
  blocks : Array Block := #[]
  instrs : Array Instr := #[]
  globals : Array Global := #[]

/-- Why an edit of a program is refused. -/
inductive ProgramError where
  | erasedInstruction (id : InstrId)
  | erasedBlock (id : BlockId)
  | erasedFunction (id : FuncId)
  | detachedInstruction (id : InstrId)
  | alreadyAttached (id : InstrId)
  | duplicateSymbol (name : String)
  | functionNotFound (name : String)
  | invalidOperand (instruction : InstrId) (index : Nat)
  | invalidArgument (function : String) (index : Nat)
  | verification (problems : List String)
  deriving DecidableEq, Repr

/-- The message of an error. -/
def ProgramError.message : ProgramError → String
  | erasedInstruction id => "Instruction " ++ id.text ++ " was already erased"
  | erasedBlock id => "Block " ++ id.text ++ " was already erased"
  | erasedFunction id => "Function " ++ id.text ++ " was already erased"
  | detachedInstruction id => "Instruction " ++ id.text ++ " is not attached to a block"
  | alreadyAttached id => "Instruction " ++ id.text ++ " is already attached to a block"
  | duplicateSymbol name => "Duplicate symbol '" ++ name ++ "'"
  | functionNotFound name => "Function '" ++ name ++ "' not found"
  | invalidOperand id index =>
    "Operand " ++ toString index ++ " out of range for instruction " ++ id.text
  | invalidArgument f index =>
    "Argument " ++ toString index ++ " out of range for function '" ++ f ++ "'"
  | verification problems => "Module verification failed: " ++ "; ".intercalate problems

namespace Program

/-- A program without content. -/
def empty (name : String) : Program := { name := name }

/-! ## 4. Nodes by handle -/

/-- The function of a handle. -/
def func (p : Program) (id : FuncId) : Func := p.functions.getD id.index Func.tombstone

/-- The block of a handle. -/
def block (p : Program) (id : BlockId) : Block := p.blocks.getD id.index Block.tombstone

/-- The instruction of a handle. -/
def instr (p : Program) (id : InstrId) : Instr := p.instrs.getD id.index Instr.tombstone

/-- The global of a handle. -/
def global (p : Program) (id : GlobalId) : Global := p.globals.getD id.index Global.tombstone

/-- Handles of the functions that are not erased, in order of creation. -/
def liveFunctions (p : Program) : List FuncId :=
  (List.range p.functions.size).map FuncId.mk |>.filter fun id => !(p.func id).erased

/-- Handles of the globals, in order of creation. -/
def globalIds (p : Program) : List GlobalId :=
  (List.range p.globals.size).map GlobalId.mk

/-- The live function of a name. -/
def findFunction? (p : Program) (name : String) : Option FuncId :=
  p.liveFunctions.find? fun id => (p.func id).name == name

/-- The global of a name. -/
def findGlobal? (p : Program) (name : String) : Option GlobalId :=
  p.globalIds.find? fun id => (p.global id).name == name

/-- Live functions with an attribute of this key. -/
def functionsWithAttribute (p : Program) (key : String) : List FuncId :=
  p.liveFunctions.filter fun id => (p.func id).hasAttribute key

/-- The instructions of a function, block by block. -/
def instrsOf (p : Program) (id : FuncId) : List InstrId :=
  (p.func id).blocks.flatMap fun b => (p.block b).instrs

/-- The function in whose blocks an instruction stands. -/
def functionOf? (p : Program) (id : InstrId) : Option FuncId :=
  (p.instr id).parent.bind fun b => (p.block b).parent

/-- The body of a named type, if it is known and has one. -/
def namedTypeBody? (p : Program) (name : String) : Option Ty :=
  (p.namedTypes.find? (·.1 == name)).bind (·.2)

/-! ## 5. Types and labels of values -/

/-- The type of a value. -/
def valueTy (p : Program) : Value → Ty
  | .instr id => (p.instr id).ty
  | .arg f index => ((p.func f).params[index]?.map (·.ty)).getD .void
  | .block _ => .label
  | .func id => .ptr (p.func id).signature.ty
  | .global id => .ptr (p.global id).ty
  | v => v.constantTy

/-- The field that a constant index selects. -/
def selectField? (index : Value) (fields : List Ty) : Option Ty := do
  let i ← index.toInt?
  if 0 ≤ i then fields[i.toNat]? else none

/-- One step of an address computation into an aggregate. -/
def stepInto? (p : Program) (ty : Ty) (index : Value) : Option Ty :=
  match ty with
  | .array _ element => some element
  | .struct fields => selectField? index fields
  | .named name =>
    match p.namedTypeBody? name with
    | some (.struct fields) => selectField? index fields
    | _ => none
  | _ => none

/-- Where the indices lead from a type; they stop at the first that leads nowhere. -/
def walkIndices (p : Program) : Ty → List Value → Ty
  | ty, [] => ty
  | ty, index :: rest =>
    match p.stepInto? ty index with
    | some next => p.walkIndices next rest
    | none => ty

/-- The type of an address computed from a pointer to `source`. The first index steps over whole
    objects and does not change the type. -/
def gepTy (p : Program) (source : Ty) (indices : List Value) : Ty :=
  .ptr (p.walkIndices source (indices.drop 1))

/-- A short label of a value for messages. -/
def label (p : Program) : Value → String
  | .instr id =>
    match (p.instr id).name with
    | some name => "%" ++ name
    | none => "<" ++ (p.instr id).kind.opcode ++ " " ++ id.text ++ ">"
  | .arg f index =>
    match (p.func f).params[index]?.bind (·.name) with
    | some name => "%" ++ name
    | none => "<arg " ++ toString index ++ ">"
  | .block id =>
    match (p.block id).name with
    | some name => "%" ++ name
    | none => "<" ++ id.text ++ ">"
  | .func id => "@" ++ (p.func id).name
  | .global id => "@" ++ (p.global id).name
  | .int bits value => (Ty.int bits).text ++ " " ++ toString value
  | v => "<constant " ++ v.constantTy.text ++ ">"

end Program

end QirProfile
