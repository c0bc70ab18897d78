import QirProfile.Rule.Basic

/-!
# Static addresses

The rules that give qubits, qubit arrays and measurement results their addresses at compile time.
They share the two allocators, so that addresses agree across the whole program.

An allocation becomes an `inttoptr` of the address handed out. The uses of an allocation are turned
to the new instruction at once, so that later instructions on the path show a constant address:
element accesses and releases are recognised by it. An empty array has no address of its own: it
points at the next free one, and its release never reaches the allocator.
-/

namespace QirProfile

/-- What the address rules share. -/
structure Addresses where
  qubits : Allocator := {}
  results : Allocator := {}
  /-- The addresses that stand for empty arrays. -/
  emptyArrays : List InstrId := []

namespace Replacing

open Pattern (call any constInt intToPtr bitCast load)

/-! ## 1. Allocators and addresses -/

/-- Runs an operation of the qubit allocator. -/
def onQubits {α : Type} (f : Allocating α) : Replacing Addresses α := fun s =>
  match f s.extra.qubits with
  | .ok a q => .ok a { s with extra.qubits := q }
  | .error cause q => .error (.allocation cause) { s with extra.qubits := q }

/-- Runs an operation of the result allocator. -/
def onResults {α : Type} (f : Allocating α) : Replacing Addresses α := fun s =>
  match f s.extra.results with
  | .ok a r => .ok a { s with extra.results := r }
  | .error cause r => .error (.allocation cause) { s with extra.results := r }

/-- Makes a detached pointer to an address. -/
def staticAddress {σ : Type} (width : Nat) (address : Int) (ty : Ty) : Replacing σ InstrId :=
  edit (Edit.make (·.createInstr (.cast .inttoptr) ty [.ofInt width address]))

/-- The name an allocation goes by. -/
def allocationName (i : Instr) : String := i.name.getD ""

/-- Puts a static address in the place of an allocation: the uses now, the instruction later. -/
def substituteAddress {σ : Type} (id address : InstrId) : Replacing σ Unit := do
  change (·.replaceUses (.instr id) (.instr address))
  scheduleReplace id address

/-! ## 2. Qubit arrays -/

/-- An array of a constant size gets a run of addresses. -/
def allocateArray (width : Nat) : Replacer Addresses := fun id c => do
  let i := (← program).instr id
  match c.int? "size" with
  | none => return false
  | some size =>
    if size < 0 ∨ !i.ty.isPtr then return false
    let start ← onQubits (Allocator.allocate (allocationName i) size.toNat)
    let address ← staticAddress width start i.ty
    if size = 0 then
      modify fun s => { s with extra.emptyArrays := address :: s.extra.emptyArrays }
    substituteAddress id address
    return true

/-- An access to an element at a constant index of a static array becomes the address of the
    element. Its integer has the type of the index. -/
def accessElement (width : Nat) : Replacer Addresses := fun id c => do
  let p ← program
  match c.int? "arrayName", c.int? "index" with
  | some start, some index =>
    let bits := ((c.lookup "index").bind fun v => (p.valueTy v).width?).getD width
    let address ← staticAddress bits (start + index) (p.instr id).ty
    scheduleReplace id address
    (c.instr? "getElement").forM scheduleDeleteOnce
    (c.instr? "cast").forM scheduleDeleteOnce
    return true
  | _, _ => return false

/-- Gives a static address back and drops the call. -/
def releaseQubit : Replacer Addresses := fun id c => do
  match c.int? "const" with
  | none => return false
  | some address =>
    if address < 0 then return false
    onQubits (Allocator.release address.toNat)
    scheduleDelete id
    return true

/-- Gives the addresses of a static array back; an empty array has none. -/
def releaseArray : Replacer Addresses := fun id c => do
  let empty := (← get).extra.emptyArrays
  if (c.instr? "array").any empty.contains then deleteInstr id c
  else releaseQubit id c

/-- An access to an element: a load through a converted element pointer. -/
def elementAccess : Pattern :=
  let element := call "__quantum__rt__array_get_element_ptr_1d"
    [intToPtr (constInt.as "arrayName"), constInt.as "index"]
  load ((bitCast (element.as "getElement")).as "cast")

/-- Static qubit arrays. -/
def qubitArrayRules (width : Nat) : List (Rule Addresses) :=
  [.of (call "__quantum__rt__qubit_allocate_array" [any.as "size"]) (allocateArray width),
   .of elementAccess (accessElement width),
   .of (call "__quantum__rt__qubit_release_array" [(intToPtr (constInt.as "const")).as "array"])
     releaseArray]

/-! ## 3. Single qubits -/

/-- A qubit gets an address. -/
def allocateQubit (width : Nat) : Replacer Addresses := fun id _ => do
  let i := (← program).instr id
  if !i.ty.isPtr then return false
  let start ← onQubits (Allocator.allocate (allocationName i) 1)
  substituteAddress id (← staticAddress width start i.ty)
  return true

/-- Static qubits. A release of anything but a static address is dropped. -/
def qubitRules (width : Nat) : List (Rule Addresses) :=
  [.of (call "__quantum__rt__qubit_allocate" []) (allocateQubit width),
   .of (call "__quantum__rt__qubit_release" [intToPtr (constInt.as "const")]) releaseQubit,
   .of (call "__quantum__rt__qubit_release" [any.as "name"]) deleteInstr]

/-! ## 4. Measurement results -/

/-- A measurement gets an address for its result, and a call right after it measures into that
    address. -/
def measure (width : Nat) : Replacer Addresses := fun id c => do
  let i := (← program).instr id
  match c.lookup "qubit" with
  | none => return false
  | some qubit =>
    if !i.ty.isPtr then return false
    let start ← onResults (Allocator.allocate (allocationName i) 1)
    let address ← staticAddress width start i.ty
    let sig : Signature := ⟨.void, [(← program).valueTy qubit, i.ty], false⟩
    let f ← edit (Edit.make (·.ensureFunction "__quantum__qis__mz__body" sig))
    let draft := (← program).draftCall f [qubit, .instr address] none
    _ ← edit (Edit.insert (.after id) draft)
    scheduleReplace id address
    return true

/-- Static results. -/
def resultRules (width : Nat) : List (Rule Addresses) :=
  [.of (call "__quantum__qis__m__body" [any.as "qubit"]) (measure width)]

end Replacing

end QirProfile
