import Mathlib.Data.List.Basic
import QirProfile.Allocator
import QirProfile.Proofs.Steps

/-!
# Requests to an allocator, served one after the other

The proofs about allocators speak about runs: a list of requests is served in order, and a refused
request leaves the allocator as its operation left it. `Served` says once what a request can do to a
state, search pointers aside; that they matter for nothing else is proved where the search is.
-/

namespace QirProfile

variable {a b : Allocator} {i id count : Nat}

/-- The addresses of an allocation. -/
def Allocation.addresses (b : Allocation) : List Nat :=
  List.range' b.start b.count

theorem Allocation.mem_addresses {b : Allocation} {x : Nat} :
    x ∈ b.addresses ↔ b.start ≤ x ∧ x < b.stop := by
  simp [addresses, stop, List.mem_range'_1]

namespace Allocator

/-! ## 1. Requests -/

/-- A request to an allocator. -/
inductive Request where
  | allocate (name : String) (count : Nat)
  | release (address : Nat)
  | startArea
  | nextSegment
  | endArea
  | setReuse (reuse : Bool)
  | reset
  deriving DecidableEq

/-- The operation of a request; only an allocation answers with an address. -/
def Request.perform : Request → Allocating (Option Nat)
  | allocate name count => some <$> Allocator.allocate name count
  | release address => (fun _ => none) <$> Allocator.release address
  | startArea => fun a => .ok none a.startArea
  | nextSegment => (fun _ => none) <$> Allocator.nextSegment
  | endArea => (fun _ => none) <$> Allocator.endArea
  | setReuse reuse => fun a => .ok none (a.setReuse reuse)
  | reset => fun a => .ok none a.reset

/-- The state behind a request, whether it was granted or refused. -/
def serve (a : Allocator) (r : Request) : Allocator :=
  match r.perform a with
  | .ok _ b => b
  | .error _ b => b

/-- The state behind a list of requests. -/
def serveAll (a : Allocator) (rs : List Request) : Allocator :=
  rs.foldl serve a

/-- The address that a request is answered with, if it gets one. -/
def answer? (a : Allocator) (r : Request) : Option Nat :=
  match r.perform a with
  | .ok address _ => address
  | .error _ _ => none

@[simp] theorem serveAll_nil (a : Allocator) : a.serveAll [] = a := rfl

@[simp] theorem serveAll_cons (a : Allocator) (r : Request) (rs : List Request) :
    a.serveAll (r :: rs) = (a.serve r).serveAll rs := rfl

theorem serveAll_append (a : Allocator) (rs ss : List Request) :
    a.serveAll (rs ++ ss) = (a.serveAll rs).serveAll ss :=
  List.foldl_append

@[simp] theorem serve_startArea (a : Allocator) : a.serve .startArea = a.startArea := rfl

@[simp] theorem serve_setReuse (a : Allocator) (reuse : Bool) :
    a.serve (.setReuse reuse) = a.setReuse reuse := rfl

@[simp] theorem serve_reset (a : Allocator) : a.serve .reset = a.reset := rfl

/-! ## 2. States without search pointers -/

/-- A scope without its search pointer. -/
def bare (s : FreeScope) : FreeScope := { s with outward := 0 }

/-- An allocator without its search pointers. -/
def books (a : Allocator) : Allocator := { a with scopes := a.scopes.map bare }

theorem scopes_updateScope (a : Allocator) (i : Nat) (f : FreeScope → FreeScope) (j : Nat) :
    (a.updateScope i f).scopes[j]? = if i = j then a.scopes[j]?.map f else a.scopes[j]? := by
  unfold updateScope
  rw [List.getElem?_modify]
  by_cases h : i = j <;> simp [h]

theorem scope_of_allowed {x : Nat} {rest : List Nat}
    (h : (a.scope i).allowed = x :: rest) :
    ∃ s, a.scopes[i]? = some s ∧ s.allowed = x :: rest := by
  unfold scope at h
  rw [List.getD_eq_getElem?_getD] at h
  cases hs : a.scopes[i]? with
  | none => simp [hs] at h
  | some s => exact ⟨s, rfl, by simpa [hs] using h⟩

theorem books_setOutward (a : Allocator) (i k : Nat) :
    (a.updateScope i ({ · with outward := k })).books = a.books := by
  have h : (a.updateScope i ({ · with outward := k })).scopes.map bare = a.scopes.map bare := by
    apply List.ext_getElem?
    intro j
    rw [List.getElem?_map, scopes_updateScope, List.getElem?_map]
    split
    · cases a.scopes[j]? <;> rfl
    · rfl
  unfold books
  rw [h]
  rfl

/-! ## 3. Taking one free address -/

/-- The state behind taking the first free address of the scope at `i`. -/
def pop (a : Allocator) (i : Nat) : Allocator :=
  a.updateScope i fun s => { s with allowed := s.allowed.tail }

theorem popFree_cons {rest : List Nat}
    (h : (a.scope i).allowed = id :: rest) : a.popFree i = (some id, a.pop i) := by
  have hscopes : a.scopes.modify i ({ · with allowed := rest }) =
      a.scopes.modify i fun s => { s with allowed := s.allowed.tail } := by
    obtain ⟨s, hi, hs⟩ := scope_of_allowed h
    apply List.ext_getElem?
    intro j
    rw [List.getElem?_modify, List.getElem?_modify]
    by_cases hij : i = j
    · subst hij
      simp [hi, hs]
    · simp [hij]
  unfold popFree pop updateScope
  rw [h]
  simp only [hscopes]

theorem popFree_some (h : a.popFree i = (some id, b)) :
    (∃ rest, (a.scope i).allowed = id :: rest) ∧ b.books = (a.pop i).books := by
  cases hs : (a.scope i).allowed with
  | nil =>
    unfold popFree at h
    rw [hs] at h
    cases h
  | cons id' rest =>
    rw [popFree_cons hs] at h
    cases h
    exact ⟨⟨rest, rfl⟩, rfl⟩

theorem popFree_none (h : a.popFree i = (none, b)) : b = a := by
  unfold popFree at h
  split at h
  · cases h; rfl
  · cases h

theorem takeFree_some (h : a.takeFree = (some id, b)) :
    ∃ i, (∃ rest, (a.scope i).allowed = id :: rest) ∧ b.books = (a.pop i).books := by
  unfold takeFree at h
  split at h
  · rename_i id' b' hp
    cases h
    exact ⟨a.top, popFree_some hp⟩
  · split at h
    · cases h
    · simp only [Prod.mk.injEq] at h
      obtain ⟨hf, rfl⟩ := h
      have hp : a.popFree (a.search a.scopes.length a.top) =
          (some id, (a.popFree (a.search a.scopes.length a.top)).2) := Prod.ext hf rfl
      obtain ⟨hrest, hb⟩ := popFree_some hp
      refine ⟨_, hrest, ?_⟩
      rw [books_setOutward]
      exact hb

theorem takeFree_none (h : a.takeFree = (none, b)) : b.books = a.books := by
  unfold takeFree at h
  split at h
  · cases h
  · split at h
    · cases h; rfl
    · simp only [Prod.mk.injEq] at h
      obtain ⟨hf, rfl⟩ := h
      have hp : a.popFree (a.search a.scopes.length a.top) =
          (none, (a.popFree (a.search a.scopes.length a.top)).2) := Prod.ext hf rfl
      rw [books_setOutward, popFree_none hp]

/-! ## 4. Allocating -/

/-- The state behind handing out `count` addresses that were never handed out. -/
def grow (a : Allocator) (count : Nat) : Allocator :=
  { a with
    capacity := if a.capacity < a.nextId + count then
        max (a.nextId + count) (min (2 * a.capacity) (span 64 - 1)) else a.capacity
    nextId := a.nextId + count }

/-- The state behind entering an allocation. -/
def enter (a : Allocator) (b : Allocation) : Allocator :=
  { a with
    live := insertLive b a.live
    inUse := a.inUse + b.count
    maxUsed := max a.maxUsed (a.inUse + b.count) }

theorem extend_apply (count : Nat) (a : Allocator) :
    extend count a =
      if span 64 ≤ a.nextId + count ∨ (a.capacity < a.nextId + count ∧ !a.mayExtend) then
        .error (.capacityExhausted a.capacity count) a
      else .ok a.nextId (a.grow count) := by
  unfold extend
  rw [get_bind]
  split <;> rfl

theorem takeOne_apply (a : Allocator) :
    takeOne a = match a.takeFree with
      | (some id, b) => .ok id b
      | (none, b) => extend 1 b := by
  unfold takeOne
  rw [get_bind]
  rcases a.takeFree with ⟨_ | id, b⟩ <;> rfl

theorem allocate_apply (name : String) (count : Nat) (a : Allocator) :
    allocate name count a =
      if count = 0 then .ok a.nextId a
      else if span 64 ≤ a.inUse + count then .error (.capacityExhausted a.capacity count) a
      else match (if count = 1 ∧ a.reuse then takeOne else extend count) a with
        | .ok start b => .ok start (b.enter ⟨name, start, count⟩)
        | .error e b => .error e b := by
  unfold allocate
  rw [get_bind]
  simp only [bind]
  split
  · rfl
  · split
    · rfl
    · split <;> split <;> simp_all [EStateM.bind] <;> rfl

theorem extend_ok {start : Nat} (h : extend count a = .ok start b) :
    start = a.nextId ∧ b = a.grow count ∧ a.nextId + count < span 64 ∧
      (a.mayExtend = false → a.nextId + count ≤ a.capacity) := by
  rw [extend_apply] at h
  split at h
  · cases h
  · rename_i hc
    cases h
    refine ⟨rfl, rfl, ?_, fun hm => ?_⟩
    · omega
    · simp only [hm, Bool.not_false, and_true] at hc
      omega

theorem extend_error {e : AllocationError}
    (h : extend count a = .error e b) : b = a := by
  rw [extend_apply] at h
  split at h
  · cases h; rfl
  · cases h

/-- How an allocation of `count` addresses at `start` turns one state into another, search pointers
    aside. -/
inductive Allocated (a : Allocator) (name : String) : (count start : Nat) → Allocator → Prop where
  /-- Nothing was asked for. -/
  | empty : Allocated a name 0 a.nextId a
  /-- A free address is handed out again. -/
  | reused {b : Allocator} {i start : Nat} {rest : List Nat} (hword : a.inUse + 1 < span 64)
      (hi : (a.scope i).allowed = start :: rest)
      (hb : b.books = ((a.pop i).enter ⟨name, start, 1⟩).books) : Allocated a name 1 start b
  /-- The addresses were never handed out before. -/
  | fresh {b : Allocator} {count : Nat} (hpos : 0 < count) (hword : a.inUse + count < span 64)
      (hend : a.nextId + count < span 64)
      (hfix : a.mayExtend = false → a.nextId + count ≤ a.capacity)
      (hb : b.books = ((a.grow count).enter ⟨name, a.nextId, count⟩).books) :
      Allocated a name count a.nextId b

theorem books_enter (h : b.books = a.books) (c : Allocation) :
    (b.enter c).books = (a.enter c).books := by
  have e : ∀ s : Allocator, (s.enter c).books = s.books.enter c := fun _ => rfl
  rw [e, e, h]

theorem books_grow (h : b.books = a.books) (count : Nat) :
    (b.grow count).books = (a.grow count).books := by
  have e : ∀ s : Allocator, (s.grow count).books = s.books.grow count := fun _ => rfl
  rw [e, e, h]

theorem allocate_ok {name : String} {start : Nat}
    (h : allocate name count a = .ok start b) : Allocated a name count start b := by
  rw [allocate_apply] at h
  split at h
  · rename_i h0
    cases h
    subst h0
    exact .empty
  split at h
  · cases h
  rename_i h0 hword
  have hpos : 0 < count := Nat.pos_of_ne_zero h0
  have hword : a.inUse + count < span 64 := Nat.lt_of_not_le hword
  split at h
  case h_2 => cases h
  rename_i start' b' hs
  cases h
  split at hs
  · rename_i hone
    obtain ⟨rfl, -⟩ := hone
    rw [takeOne_apply] at hs
    split at hs
    · rename_i id c hf
      cases hs
      obtain ⟨i, ⟨rest, hi⟩, hb⟩ := takeFree_some hf
      exact .reused hword hi (books_enter hb _)
    · rename_i c hf
      have hc := takeFree_none hf
      have hn : c.nextId = a.nextId := show c.books.nextId = a.books.nextId by rw [hc]
      obtain ⟨rfl, rfl, hend, hfix⟩ := extend_ok hs
      rw [hn] at hend hfix ⊢
      refine .fresh hpos hword hend (fun hm => ?_) (books_enter (books_grow hc 1) _)
      have hcap : c.capacity = a.capacity := show c.books.capacity = a.books.capacity by rw [hc]
      have hmay : c.mayExtend = a.mayExtend := show c.books.mayExtend = a.books.mayExtend by rw [hc]
      exact Nat.le_trans (hfix (hmay.trans hm)) (Nat.le_of_eq hcap)
  · obtain ⟨rfl, rfl, hend, hfix⟩ := extend_ok hs
    exact .fresh hpos hword hend hfix rfl

theorem allocate_error {name : String} {e : AllocationError}
    (h : allocate name count a = .error e b) : b.books = a.books := by
  rw [allocate_apply] at h
  split at h
  · cases h
  split at h
  · cases h; rfl
  split at h
  case h_1 => cases h
  rename_i e' b' hs
  cases h
  split at hs
  · rw [takeOne_apply] at hs
    split at hs
    · cases hs
    · rename_i c hf
      rw [extend_error hs]
      exact takeFree_none hf
  · rw [extend_error hs]

theorem serve_allocate (a : Allocator) (name : String) (count : Nat) :
    ((∃ e, allocate name count a = .error e (a.serve (.allocate name count))) ∧
      (a.serve (.allocate name count)).books = a.books) ∨
    ∃ start, a.answer? (.allocate name count) = some start ∧
      Allocated a name count start (a.serve (.allocate name count)) := by
  cases h : allocate name count a with
  | ok start b =>
    right
    refine ⟨start, ?_, ?_⟩
    · simp [answer?, Request.perform, Functor.map, EStateM.map, h]
    · have e : a.serve (.allocate name count) = b := by
        simp [serve, Request.perform, Functor.map, EStateM.map, h]
      rw [e]
      exact allocate_ok h
  | error e b =>
    left
    have hs : a.serve (.allocate name count) = b := by
      simp [serve, Request.perform, Functor.map, EStateM.map, h]
    rw [hs]
    exact ⟨⟨e, rfl⟩, allocate_error h⟩

/-! ## 5. Giving back, and areas -/

/-- The state behind giving a live allocation back. -/
def putBack (a : Allocator) (b : Allocation) : Allocator :=
  let c := { a with live := a.live.filter (·.start != b.start), inUse := a.inUse - b.count }
  if a.reuse then
    c.updateScope a.top fun s => { s with allowed := b.addresses ++ s.allowed }
  else c

/-- The state behind the start of the next segment of the innermost area. -/
def closeSegment (a : Allocator) : Allocator :=
  a.updateScope a.top fun s => { s with allowed := [], prohibited := s.allowed ++ s.prohibited }

/-- The state behind the end of the innermost area. -/
def closeArea (a : Allocator) : Allocator :=
  let inner := a.scope a.top
  let c := { a with scopes := a.scopes.dropLast }
  c.updateScope c.top fun s =>
    { s with
      outward := min inner.outward s.outward
      allowed := inner.allowed ++ inner.prohibited ++ s.allowed }

theorem serve_release (a : Allocator) (address : Nat) :
    (a.live.find? (·.start == address) = none ∧ a.serve (.release address) = a) ∨
    ∃ b, a.live.find? (·.start == address) = some b ∧ b ∈ a.live ∧ b.start = address ∧
      a.serve (.release address) = a.putBack b := by
  cases h : a.live.find? (·.start == address) with
  | none =>
    left
    refine ⟨rfl, ?_⟩
    simp only [serve, Request.perform, Functor.map, EStateM.map, release, get_bind, h]
    rfl
  | some b =>
    right
    have hb : b.start = address := by simpa using List.find?_some h
    refine ⟨b, rfl, List.mem_of_find?_eq_some h, hb, ?_⟩
    simp only [serve, Request.perform, Functor.map, EStateM.map, release, get_bind, h]
    subst hb
    rfl

theorem serve_nextSegment (a : Allocator) :
    (a.scopes.length < 2 ∧ a.serve .nextSegment = a) ∨
    (2 ≤ a.scopes.length ∧ a.serve .nextSegment = a.closeSegment) := by
  simp only [serve, Request.perform, Functor.map, EStateM.map, nextSegment, get_bind]
  by_cases h : a.scopes.length < 2
  · left
    rw [if_pos h]
    exact ⟨h, rfl⟩
  · right
    rw [if_neg h]
    exact ⟨Nat.le_of_not_lt h, rfl⟩

theorem serve_endArea (a : Allocator) :
    (a.scopes.length < 2 ∧ a.serve .endArea = a) ∨
    (2 ≤ a.scopes.length ∧ a.serve .endArea = a.closeArea) := by
  simp only [serve, Request.perform, Functor.map, EStateM.map, endArea, get_bind]
  by_cases h : a.scopes.length < 2
  · left
    rw [if_pos h]
    exact ⟨h, rfl⟩
  · right
    rw [if_neg h]
    exact ⟨Nat.le_of_not_lt h, rfl⟩

/-- What a request can do to a state, search pointers aside. -/
inductive Served (a : Allocator) : Request → Allocator → Prop where
  /-- It is refused. -/
  | refused {r : Request} {b : Allocator} (hb : b.books = a.books) : Served a r b
  | allocate {name : String} {count start : Nat} {b : Allocator}
      (hans : a.answer? (.allocate name count) = some start)
      (hb : Allocated a name count start b) : Served a (.allocate name count) b
  | release {b : Allocation} (hb : b ∈ a.live) : Served a (.release b.start) (a.putBack b)
  | startArea : Served a .startArea a.startArea
  | nextSegment : Served a .nextSegment a.closeSegment
  | endArea (hopen : 2 ≤ a.scopes.length) : Served a .endArea a.closeArea
  | setReuse (reuse : Bool) : Served a (.setReuse reuse) (a.setReuse reuse)
  | reset : Served a .reset a.reset

/-- What one request does, search pointers aside. -/
theorem served (a : Allocator) (r : Request) : Served a r (a.serve r) := by
  cases r with
  | allocate name count =>
    rcases serve_allocate a name count with ⟨-, hb⟩ | ⟨start, hans, hb⟩
    · exact .refused hb
    · exact .allocate hans hb
  | release address =>
    rcases serve_release a address with ⟨-, hb⟩ | ⟨b, -, hmem, rfl, hb⟩ <;> rw [hb]
    · exact .refused rfl
    · exact .release hmem
  | startArea => exact .startArea
  | nextSegment =>
    rcases serve_nextSegment a with ⟨-, hb⟩ | ⟨-, hb⟩ <;> rw [hb]
    · exact .refused rfl
    · exact .nextSegment
  | endArea =>
    rcases serve_endArea a with ⟨-, hb⟩ | ⟨hopen, hb⟩ <;> rw [hb]
    · exact .refused rfl
    · exact .endArea hopen
  | setReuse reuse => exact .setReuse reuse
  | reset => exact .reset

end Allocator

end QirProfile
