import QirProfile.Span

/-!
# Handing out addresses at compile time

An allocator hands out addresses for qubits or results the way a runtime would. Released addresses
go to the free list of the innermost open scope, and single addresses are taken from there again.

A restricted reuse area opens a scope and splits its time into segments: an address released in one
segment can be handed out again in that segment, but once the next segment starts it is blocked
until the area ends. Ending an area gives all its free addresses to the scope around it.

Each scope remembers the nearest scope around it that may still have free addresses
(`outward`), so that a search skips those known to be empty. Addresses and counts are words
of 64 bits.
-/

namespace QirProfile

/-- Why an allocator refuses a request. -/
inductive AllocationError where
  | capacityExhausted (capacity requested : Nat)
  | notAllocated (address : Nat)
  | noOpenArea
  deriving DecidableEq, Repr

/-- The message of an error. -/
def AllocationError.message : AllocationError → String
  | capacityExhausted capacity requested =>
    "Cannot allocate " ++ toString requested ++ " address(es): capacity of " ++ toString capacity ++
      " is exhausted"
  | notAllocated address => "Address " ++ toString address ++ " is not allocated"
  | noOpenArea => "No restricted reuse area is open"

/-- A live allocation: `count` addresses from `start` on. -/
structure Allocation where
  name : String
  start : Nat
  count : Nat
  deriving DecidableEq

/-- One past the last address. -/
def Allocation.stop (b : Allocation) : Nat := b.start + b.count

/-- The free addresses of a scope. In both lists the address to be handed out next stands first. -/
structure FreeScope where
  allowed : List Nat := []
  /-- Addresses released in an earlier segment of the area. -/
  prohibited : List Nat := []
  outward : Nat := 0
  deriving DecidableEq

/-- An allocator. -/
structure Allocator where
  /-- The next address that was never handed out. -/
  nextId : Nat := 0
  initialCapacity : Nat := 8
  capacity : Nat := 8
  mayExtend : Bool := true
  /-- Whether released addresses are handed out again. -/
  reuse : Bool := true
  /-- The scopes of the open areas, the outermost scope first. -/
  scopes : List FreeScope := [{}]
  /-- Live allocations in the order of their addresses. -/
  live : List Allocation := []
  inUse : Nat := 0
  maxUsed : Nat := 0
  deriving DecidableEq

/-- An operation of an allocator. A refused one may still have moved a search pointer. -/
abbrev Allocating := EStateM AllocationError Allocator

namespace Allocator

/-- An allocator of the given capacity. -/
def withCapacity (capacity : Nat) (mayExtend : Bool) : Allocator :=
  { initialCapacity := capacity, capacity := capacity, mayExtend := mayExtend }

/-! ## 1. Views -/

/-- The number of open areas. -/
def openAreas (a : Allocator) : Nat := a.scopes.length - 1

/-- The index of the innermost scope. -/
def top (a : Allocator) : Nat := a.scopes.length - 1

/-- The scope at an index. -/
def scope (a : Allocator) (i : Nat) : FreeScope := a.scopes.getD i {}

/-- Changes the scope at an index. -/
def updateScope (a : Allocator) (i : Nat) (f : FreeScope → FreeScope) : Allocator :=
  { a with scopes := a.scopes.modify i f }

/-- The first address of the lowest live allocation with this name. -/
def addressOf? (a : Allocator) (name : String) : Option Nat :=
  (a.live.find? (·.name == name)).map (·.start)

/-! ## 2. Taking addresses -/

/-- Follows the pointers outwards from the scope at `i` to one with a free address, or to the
    outermost scope. Pointers lead strictly outwards, so as many steps as scopes are enough. -/
def search (a : Allocator) : (fuel : Nat) → Nat → Nat
  | 0, i => i
  | fuel + 1, i =>
    let j := (a.scope i).outward
    if (a.scope j).allowed ≠ [] ∨ j = 0 then j else a.search fuel j

/-- Takes the first free address of the scope at an index. -/
def popFree (a : Allocator) (i : Nat) : Option Nat × Allocator :=
  match (a.scope i).allowed with
  | [] => (none, a)
  | id :: rest => (some id, a.updateScope i ({ · with allowed := rest }))

/-- Takes a free address of the innermost scope that has one. The innermost scope remembers how far
    the search went: what was passed over stays empty while its area is open. -/
def takeFree (a : Allocator) : Option Nat × Allocator :=
  match a.popFree a.top with
  | (some id, b) => (some id, b)
  | (none, _) =>
    if a.top = 0 then (none, a)
    else
      let i := a.search a.scopes.length a.top
      let (found, b) := a.popFree i
      (found, b.updateScope a.top ({ · with outward := i }))

/-- Takes addresses that were never handed out. -/
def extend (count : Nat) : Allocating Nat := do
  let a ← get
  let stop := a.nextId + count
  if span 64 ≤ stop ∨ (a.capacity < stop ∧ !a.mayExtend) then
    throw (.capacityExhausted a.capacity count)
  let capacity :=
    if a.capacity < stop then max stop (min (2 * a.capacity) (span 64 - 1)) else a.capacity
  set { a with capacity := capacity, nextId := stop }
  return a.nextId

/-- A free address if there is one, else one that was never handed out. -/
def takeOne : Allocating Nat := do
  let (found, b) := (← get).takeFree
  set b
  match found with
  | some id => return id
  | none => extend 1

/-- Puts an allocation among the live ones, in the order of addresses. -/
def insertLive (b : Allocation) : List Allocation → List Allocation
  | [] => [b]
  | c :: rest => if b.start < c.start then b :: c :: rest else c :: insertLive b rest

/-- Allocates `count` addresses and gives the first one. Several addresses are always fresh and
    contiguous. Nothing is reserved for an empty request; it gets the next fresh address. -/
def allocate (name : String) (count : Nat) : Allocating Nat := do
  let a ← get
  if count = 0 then return a.nextId
  if span 64 ≤ a.inUse + count then throw (.capacityExhausted a.capacity count)
  let start ← if count = 1 ∧ a.reuse then takeOne else extend count
  modify fun b =>
    { b with
      live := insertLive ⟨name, start, count⟩ b.live
      inUse := b.inUse + count
      maxUsed := max b.maxUsed (b.inUse + count) }
  return start

/-! ## 3. Giving addresses back -/

/-- Releases the allocation that starts at an address. -/
def release (address : Nat) : Allocating Unit := do
  let a ← get
  match a.live.find? (·.start == address) with
  | none => throw (.notAllocated address)
  | some b =>
    let a :=
      { a with live := a.live.filter (·.start != address), inUse := a.inUse - b.count }
    set <| if a.reuse then
        a.updateScope a.top fun s => { s with allowed := List.range' b.start b.count ++ s.allowed }
      else a

/-! ## 4. Areas -/

/-- Opens a restricted reuse area. -/
def startArea (a : Allocator) : Allocator :=
  { a with scopes := a.scopes ++ [{ outward := a.scopes.length - 1 }] }

/-- Ends the current segment of the innermost area and starts another one. -/
def nextSegment : Allocating Unit := do
  let a ← get
  if a.scopes.length < 2 then throw .noOpenArea
  set <| a.updateScope a.top fun s =>
    { s with allowed := [], prohibited := s.allowed ++ s.prohibited }

/-- Ends the innermost area. -/
def endArea : Allocating Unit := do
  let a ← get
  if a.scopes.length < 2 then throw .noOpenArea
  let ended := a.scope a.top
  let a := { a with scopes := a.scopes.dropLast }
  set <| a.updateScope a.top fun s =>
    { s with
      outward := min ended.outward s.outward
      allowed := ended.allowed ++ ended.prohibited ++ s.allowed }

/-! ## 5. Settings -/

/-- Switches the reuse of released addresses on or off. -/
def setReuse (a : Allocator) (reuse : Bool) : Allocator :=
  { a with reuse := reuse }

/-- Forgets all allocations, areas and counts. -/
def reset (a : Allocator) : Allocator :=
  { initialCapacity := a.initialCapacity, capacity := a.initialCapacity
    mayExtend := a.mayExtend, reuse := a.reuse }

end Allocator

end QirProfile
