import QirProfile.Program.Basic
import QirProfile.Binary64

/-!
# Programs as text

Inside a function every value is written as its slot: a name, made unique by a suffix where it was
given out before, or the next number. Arguments, blocks and results share names and numbers, in the
order in which they stand. A value without a slot is written by its label in angle brackets.

Attributes go into groups behind the functions, one group for each list of attributes that occurs.
-/

namespace QirProfile.Assembly

open Text

/-! ## 1. Slots -/

/-- The slots of a function. -/
structure Slots where
  args : List ((FuncId × Nat) × String) := []
  instrs : List (InstrId × String) := []
  blocks : List (BlockId × String) := []

/-- The names and numbers given out so far. -/
structure Naming where
  used : List String := []
  next : Nat := 0

/-- The first of `name.n`, `name.(n+1)`, … that was not given out. A name that was tried leaves the
    list, since no later candidate can equal it. -/
def suffixed (name : String) : (fuel : Nat) → Nat → List String → String
  | 0, n, _ => name ++ "." ++ toString n
  | fuel + 1, n, used =>
    let candidate := name ++ "." ++ toString n
    if used.contains candidate then suffixed name fuel (n + 1) (used.erase candidate)
    else candidate

/-- Gives out a slot. -/
def Naming.give (naming : Naming) : Option String → String × Naming
  | none => (toString naming.next, { naming with next := naming.next + 1 })
  | some name =>
    let fresh :=
      if naming.used.contains name then suffixed name naming.used.length 1 naming.used else name
    (quoteName fresh, { naming with used := fresh :: naming.used })

/-- Gives the parameters their slots. -/
def nameParams (f : FuncId) : Nat → List Param → Slots × Naming → Slots × Naming
  | _, [], state => state
  | index, param :: rest, (slots, naming) =>
    let (slot, naming) := naming.give param.name
    nameParams f (index + 1) rest ({ slots with args := ((f, index), slot) :: slots.args }, naming)

/-- Gives an instruction its slot, if it has a result. -/
def nameInstr (p : Program) (state : Slots × Naming) (id : InstrId) : Slots × Naming :=
  let i := p.instr id
  if i.ty.isVoid then state
  else
    let (slot, naming) := state.2.give i.name
    ({ state.1 with instrs := (id, slot) :: state.1.instrs }, naming)

/-- Gives a block and its instructions their slots. -/
def nameBlock (p : Program) (state : Slots × Naming) (id : BlockId) : Slots × Naming :=
  let b := p.block id
  let (slot, naming) := state.2.give b.name
  b.instrs.foldl (nameInstr p) ({ state.1 with blocks := (id, slot) :: state.1.blocks }, naming)

/-- The slots of a function. -/
def slotsOf (p : Program) (f : FuncId) : Slots :=
  ((p.func f).blocks.foldl (nameBlock p) (nameParams f 0 (p.func f).params ({}, {}))).1

/-! ## 2. Values -/

/-- What values are written with: a program and the slots of the function at hand. -/
structure Printer where
  program : Program
  slots : Slots := {}

namespace Printer

/-- A local value by its slot, or by its label where it has none. -/
def slotText (slot : Option String) (label : String) : String :=
  "%" ++ slot.getD ("<" ++ label ++ ">")

/-- A block. -/
def block (pr : Printer) (b : BlockId) : String :=
  slotText (pr.slots.blocks.lookup b) b.text

/-- The type of a value and a blank, as they stand before it. -/
def tyBefore (pr : Printer) (v : Value) : String :=
  (pr.program.valueTy v).text ++ " "

mutual

/-- A value without its type. -/
def value (pr : Printer) : Value → String
  | .instr id => slotText (pr.slots.instrs.lookup id) (pr.program.label (.instr id))
  | .arg f i => slotText (pr.slots.args.lookup (f, i)) (pr.program.label (.arg f i))
  | .block b => pr.block b
  | .func f => globalName (pr.program.func f).name
  | .global g => globalName (pr.program.global g).name
  | .int bits v =>
    if bits = 1 then (if v = 0 then "false" else "true") else toString v
  | .float _ bits => Binary64.text bits
  | .null _ => "null"
  | .undef _ => "undef"
  | .zero _ => "zeroinitializer"
  | .bytes data => "c\"" ++ escapeBytes data ++ "\""
  | .array _ vs => "[" ++ Ty.commas (pr.typedAll vs) ++ "]"
  | .struct _ vs => "\x7b " ++ Ty.commas (pr.typedAll vs) ++ " \x7d"
  | .cast op v target =>
    op.name ++ " (" ++ pr.tyBefore v ++ pr.value v ++ " to " ++ target.text ++ ")"
  | .gep inbounds source base indices _ =>
    "getelementptr " ++ (if inbounds then "inbounds " else "") ++ "(" ++
      Ty.commas (source.text :: (pr.tyBefore base ++ pr.value base) :: pr.typedAll indices) ++ ")"

/-- Values, each behind its type. -/
def typedAll (pr : Printer) : List Value → List String
  | [] => []
  | v :: vs => (pr.tyBefore v ++ pr.value v) :: pr.typedAll vs

end

/-- A value behind its type. -/
def typed (pr : Printer) (v : Value) : String :=
  pr.tyBefore v ++ pr.value v

/-- An operand by position; nothing where it is missing. -/
def operand (pr : Printer) (vs : List Value) (i : Nat) : String :=
  (vs[i]?.map pr.value).getD "<missing>"

/-- An operand behind its type by position. -/
def typedOperand (pr : Printer) (vs : List Value) (i : Nat) : String :=
  (vs[i]?.map pr.typed).getD "<missing>"

/-! ## 3. Instructions -/

/-- A value as a branch target. -/
def label (pr : Printer) (v : Value) : String :=
  "label " ++ pr.value v

/-- An alignment behind a comma. -/
def alignText : Option Nat → String
  | none => ""
  | some n => ", align " ++ toString n

/-- The result type, the callee and the arguments of a call. A callee with variable arguments has
    its whole type written. -/
def callSite (pr : Printer) (i : Instr) : String :=
  let callee := (i.callee?.map pr.value).getD "<missing>"
  let ty := match i.calledFunction?.map pr.program.func with
    | some f => if f.varArg then f.signature.ty else i.ty
    | none => i.ty
  ty.text ++ " " ++ callee ++ "(" ++ Ty.commas (i.arguments.map pr.typed) ++ ")"

/-- The cases of a switch, each on a line of its own. -/
def switchCases (pr : Printer) : List Value → String
  | value :: dest :: rest =>
    "\n    " ++ pr.typed value ++ ", " ++ pr.label dest ++ pr.switchCases rest
  | _ => ""

/-- What an instruction does, without its result. -/
def operation (pr : Printer) (i : Instr) : String :=
  let ops := i.operands
  match i.kind with
  | .ret =>
    match ops.head? with
    | some v => "ret " ++ pr.typed v
    | none => "ret void"
  | .br =>
    match ops with
    | [dest] => "br " ++ pr.label dest
    | [cond, ifFalse, ifTrue] =>
      "br " ++ Ty.commas [pr.typed cond, pr.label ifTrue, pr.label ifFalse]
    | _ => "br <malformed>"
  | .switch =>
    match ops with
    | cond :: default :: cases =>
      "switch " ++ pr.typed cond ++ ", " ++ pr.label default ++ " [" ++ pr.switchCases cases ++
        "\n  ]"
    | _ => "switch"
  | .unreachable => "unreachable"
  | .call marker => marker.lead ++ "call " ++ pr.callSite i
  | .invoke =>
    match i.invokeDestinations? with
    | some (normal, unwind) =>
      "invoke " ++ pr.callSite i ++ "\n          to " ++ pr.label (.block normal) ++ " unwind " ++
        pr.label (.block unwind)
    | none => "invoke <malformed>"
  | .binary op =>
    op.name ++ " " ++ i.ty.text ++ " " ++ pr.operand ops 0 ++ ", " ++ pr.operand ops 1
  | .icmp pred =>
    let ty := (ops.head?.map pr.program.valueTy).getD .void
    "icmp " ++ pred.name ++ " " ++ ty.text ++ " " ++ pr.operand ops 0 ++ ", " ++ pr.operand ops 1
  | .cast op => op.name ++ " " ++ pr.typedOperand ops 0 ++ " to " ++ i.ty.text
  | .load align => "load " ++ i.ty.text ++ ", " ++ pr.typedOperand ops 0 ++ alignText align
  | .store align =>
    "store " ++ pr.typedOperand ops 0 ++ ", " ++ pr.typedOperand ops 1 ++ alignText align
  | .alloca allocated align => "alloca " ++ allocated.text ++ alignText align
  | .gep source inbounds =>
    "getelementptr " ++ (if inbounds then "inbounds " else "") ++
      Ty.commas (source.text :: ops.map pr.typed)
  | .select =>
    "select " ++ Ty.commas [pr.typedOperand ops 0, pr.typedOperand ops 1, pr.typedOperand ops 2]
  | .phi blocks =>
    "phi " ++ i.ty.text ++ " " ++ Ty.commas ((ops.zip blocks).map fun (v, b) =>
      "[ " ++ pr.value v ++ ", " ++ pr.block b ++ " ]")

/-- An instruction with its result. -/
def instr (pr : Printer) (id : InstrId) : String :=
  let i := pr.program.instr id
  (if i.ty.isVoid then "" else pr.value (.instr id) ++ " = ") ++ pr.operation i

/-! ## 4. Functions -/

/-- The parameters of a function; a definition names them. -/
def params (pr : Printer) (id : FuncId) (f : Func) : List String :=
  f.params.zipIdx.map (fun (param, i) =>
    if f.isDeclaration then param.ty.text else param.ty.text ++ " " ++ pr.value (.arg id i)) ++
  if f.varArg then ["..."] else []

/-- A word and a blank behind it, if there is a word. -/
def wordBefore : Option String → String
  | some word => word ++ " "
  | none => ""

/-- The first line of a function. `group` is the number of its attribute group. -/
def header (pr : Printer) (id : FuncId) (group : Option Nat) : String :=
  let f := pr.program.func id
  (if f.isDeclaration then "declare " else "define ") ++ wordBefore f.linkage ++ f.ret.text ++
    " " ++ globalName f.name ++ "(" ++ Ty.commas (pr.params id f) ++ ")" ++
    (f.unnamedAddr.map (" " ++ ·)).getD "" ++
    (group.map fun n => " #" ++ toString n).getD ""

/-- The lines of a block. The first block has a label only if it has a name. -/
def blockLines (pr : Printer) (isFirst : Bool) (id : BlockId) : List String :=
  let b := pr.program.block id
  (if isFirst then [] else [""]) ++
  (if isFirst && b.name.isNone then [] else [(pr.slots.blocks.lookup id).getD "" ++ ":"]) ++
  b.instrs.map fun i => "  " ++ pr.instr i

/-- The lines of a function. -/
def functionLines (p : Program) (id : FuncId) (group : Option Nat) : List String :=
  let pr : Printer := ⟨p, slotsOf p id⟩
  let f := p.func id
  if f.isDeclaration then [pr.header id group]
  else
    [pr.header id group ++ " \x7b"] ++
    (f.blocks.zipIdx.flatMap fun (b, i) => pr.blockLines (i == 0) b) ++ ["\x7d"]

/-- The line of a global. -/
def global (pr : Printer) (g : Global) : String :=
  globalName g.name ++ " = " ++ wordBefore g.linkage ++ wordBefore g.unnamedAddr ++
    (if g.constant then "constant " else "global ") ++ g.ty.text ++
    (g.initializer.map fun v => " " ++ pr.value v).getD "" ++ alignText g.align

end Printer

/-! ## 5. Programs -/

/-- The number of a list of attributes among the groups, and the groups with it. -/
def groupOf (groups : List (List Attribute)) (attributes : List Attribute) :
    Option Nat × List (List Attribute) :=
  if attributes.isEmpty then (none, groups)
  else
    match groups.idxOf? attributes with
    | some i => (some i, groups)
    | none => (some groups.length, groups ++ [attributes])

/-- The lines of functions, each behind an empty line, and the attribute groups they use. -/
def functionsLines (p : Program) :
    List FuncId → List (List Attribute) → List String × List (List Attribute)
  | [], groups => ([], groups)
  | id :: rest, groups =>
    let (group, groups) := groupOf groups (p.func id).attributes
    let (lines, groups) := functionsLines p rest groups
    ("" :: Printer.functionLines p id group ++ lines, groups)

/-- An empty line before a section that is not empty. -/
def spaced (lines : List String) : List String :=
  if lines.isEmpty then [] else "" :: lines

/-- The lines of the header. -/
def headerLines (p : Program) : List String :=
  ["; ModuleID = '" ++ p.name ++ "'"] ++
  (p.sourceFile.map fun s => "source_filename = \"" ++ escapeBytes (utf8Bytes s) ++ "\"").toList ++
  (p.dataLayout.map fun s => "target datalayout = \"" ++ s ++ "\"").toList ++
  (p.targetTriple.map fun s => "target triple = \"" ++ s ++ "\"").toList

/-- The lines of the named types. -/
def typeLines (p : Program) : List String :=
  p.namedTypes.map fun (name, body) =>
    (Ty.named name).text ++ " = type " ++ (body.map Ty.text).getD "opaque"

/-- The lines of the attribute groups. -/
def groupLines (groups : List (List Attribute)) : List String :=
  groups.zipIdx.map fun (attributes, i) =>
    "attributes #" ++ toString i ++ " = \x7b " ++
      " ".intercalate (attributes.map Attribute.text) ++ " \x7d"

/-- Lines as a text; each one ends with a line break. -/
def unlines (lines : List String) : String :=
  String.join (lines.map (· ++ "\n"))

/-- The text of a program. -/
def print (p : Program) : String :=
  let (functions, groups) := functionsLines p p.liveFunctions []
  unlines (headerLines p ++ spaced (typeLines p) ++
    spaced (p.globalIds.map fun id => Printer.global ⟨p, {}⟩ (p.global id)) ++
    functions ++ spaced (groupLines groups))

/-- The text of one function. -/
def printFunction (p : Program) (id : FuncId) : String :=
  let (group, _) := groupOf [] (p.func id).attributes
  unlines (Printer.functionLines p id group)

/-- The text of one instruction, with the slots of the function it stands in. -/
def printInstr (p : Program) (id : InstrId) : String :=
  let slots := match p.functionOf? id with
    | some f => slotsOf p f
    | none => {}
  Printer.instr ⟨p, slots⟩ id

/-- The text of a value behind its type, outside any function. -/
def printValue (p : Program) (v : Value) : String :=
  Printer.typed ⟨p, {}⟩ v

end QirProfile.Assembly
