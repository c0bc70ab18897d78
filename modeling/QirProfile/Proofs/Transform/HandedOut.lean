import QirProfile.Proofs.Rule.Replay
import QirProfile.Proofs.Transform.TurnedUses

/-!
# What a round hands out

Allocations and measurements that a round accepts are given addresses by the two allocators, and each of
them is to give way to a pointer to its first one. An access to an element of such an array is to give way
to a pointer to the element.
-/

namespace QirProfile

variable {p : Program} {id : InstrId} {count bits : Nat} {address : Int}

/-! ## 1. Extents of allocators -/

namespace Allocator

variable {a a' : Allocator} {name : String} {count start : Nat}

theorem Sound.below_extent (h : a.Sound) (ha : allocate name count a = .ok start a') :
    start + count ≤ a'.nextId ∧ a.nextId ≤ a'.nextId := by
  cases allocate_ok ha with
  | empty => exact ⟨Nat.le_refl _, Nat.le_refl _⟩
  | reused _ hi hbooks =>
    have hnext : a'.books.nextId = a.nextId := by
      rw [hbooks]
      rfl
    change a'.nextId = _ at hnext
    exact ⟨hnext ▸ (h.pop hi).2.1, hnext.ge⟩
  | fresh _ _ _ _ hbooks =>
    have hnext : a'.books.nextId = a.nextId + count := by
      rw [hbooks]
      rfl
    change a'.nextId = _ at hnext
    exact ⟨hnext.ge, hnext ▸ Nat.le_add_right _ _⟩

theorem allocated_next (hfree : a.freeAddresses = []) (ha : allocate name 1 a = .ok start a') :
    start = a.nextId ∧ a'.nextId = a.nextId + 1 ∧ a'.freeAddresses = [] := by
  cases allocate_ok ha with
  | reused _ hi =>
    obtain ⟨s, hs, hallowed⟩ := scope_of_allowed hi
    have hmem : start ∈ a.freeAddresses := by
      refine List.mem_flatMap.mpr ⟨s, List.mem_of_getElem? hs, ?_⟩
      rw [hallowed]
      exact List.mem_cons_self
    rw [hfree] at hmem
    cases hmem
  | fresh _ _ _ _ hbooks =>
    have hnext : a'.books.nextId = a.nextId + 1 := by
      rw [hbooks]
      rfl
    have hnone : a'.books.freeAddresses = a.freeAddresses := by
      rw [hbooks, freeAddresses_books]
      rfl
    rw [freeAddresses_books] at hnone
    exact ⟨rfl, hnext, hnone.trans hfree⟩

/-- What rules do to an allocator: nothing, or it hands out, or it takes back. -/
inductive Moves (a : Allocator) : Allocator → Prop where
  | stay : Moves a a
  | allocated {a' : Allocator} {name : String} {count start : Nat}
      (h : Allocator.allocate name count a = .ok start a') : Moves a a'
  | released {a' : Allocator} {address : Nat} (h : Allocator.release address a = .ok () a') : Moves a a'

theorem Moves.extent (h : a.Moves a') (ha : a.Sound) : a'.Sound ∧ a.nextId ≤ a'.nextId := by
  cases h with
  | stay => exact ⟨ha, Nat.le_refl _⟩
  | allocated hgranted => exact ⟨(ha.allocated hgranted).1, (ha.below_extent hgranted).2⟩
  | released hreleased =>
    obtain ⟨b, hfound, rfl⟩ := release_ok.mp hreleased
    exact ⟨ha.putBack (List.mem_of_find?_eq_some hfound), (putBack_frame a b).2.1.ge⟩

end Allocator

/-! ## 2. Trials that hand out -/

namespace Program

theorem AllocatesQubits.calls (h : p.AllocatesQubits id count) :
    ∃ name ∈ turnedCalls.take 2, p.Calls id name := by
  cases h with
  | one hcall => exact ⟨_, by decide, hcall.calls⟩
  | array _ hcall => exact ⟨_, by decide, hcall.calls⟩

end Program

namespace Replacing

open Program (AllocatesQubits ReadsElement PointsAt CallsWith turnedCalls)

variable {settings : RuleSettings} {s s' : RuleState Addresses} {id a : InstrId}
  {heir answer : Option InstrId} {along : List InstrId}

theorem Guest.pointsAt (h : Guest p a bits address) :
    p.PointsAt (.instr a) (Word.normalize address bits) := by
  refine ⟨?_, .ofInt bits address, h.operands, rfl⟩
  simp [Program.isCast, Program.liveKind?, Value.toInstr?, h.live, h.kind]

theorem Work.of_allocates (h : Work settings id s s' heir answer)
    (hcall : s.program.AllocatesQubits id count) :
    ∃ start a, heir = some a ∧ answer = some a ∧ Allocator.allocate (allocationName (s.program.instr id)) count
        s.extra.qubits = .ok start s'.extra.qubits ∧
      Guest s'.program a settings.integerWidth start := by
  obtain ⟨name, hname, hcalls⟩ := hcall.calls
  obtain ⟨a, rfl⟩ := h.turns ⟨name, List.mem_of_mem_take hname, hcalls⟩
  cases h with
  | placed hcall' hgranted _ _ hpointer =>
    obtain rfl := hcall.unique hcall'
    exact ⟨_, a, rfl, rfl, hgranted, guest_of_pointer hpointer⟩
  | compared hcompares =>
    have hequal := hcompares.calls
    obtain rfl := hcalls.unique hequal
    exact absurd hname (by decide)

theorem Work.of_measures (h : Work settings id s s' heir answer)
    (hmeasures : s.program.Calls id "__quantum__qis__m__body") :
    ∃ start a, heir = some a ∧ Allocator.allocate (allocationName (s.program.instr id)) 1 s.extra.results =
        .ok start s'.extra.results ∧ Guest s'.program a settings.integerWidth start := by
  have hother : ∀ {name}, s.program.Calls id name → name = "__quantum__qis__m__body" :=
    fun hcalls => hcalls.unique hmeasures
  cases h with
  | measured _ hgranted _ _ hpointer => exact ⟨_, _, rfl, hgranted, guest_of_pointer hpointer⟩
  | removed hname hcalls =>
    refine absurd hname (not_mem_removed ?_)
    rw [hother hcalls]
    decide
  | released hcalls => rcases hcalls with hcalls | hcalls <;> exact absurd (hother hcalls.calls) (by decide)
  | placed hcalls =>
    obtain ⟨name, hname, hcalls⟩ := hcalls.calls
    obtain rfl := hother hcalls
    exact absurd hname (by decide)
  | read hreads =>
    obtain ⟨align, hload⟩ := hreads.load
    exact absurd hload hmeasures.not_load
  | compared hcompares =>
    exact absurd (hother (hcompares.calls)) (by decide)

theorem Work.of_reads (h : Work settings id s s' heir answer) {array : Value} {index : Int}
    (hreads : s.program.ReadsElement id array bits index) :
    ∃ base a, heir = some a ∧ s.program.PointsAt array base ∧ Guest s'.program a bits (base + index) := by
  obtain ⟨align, hload⟩ := hreads.load
  cases h with
  | read hreads' hbase _ _ hpointer =>
    obtain ⟨rfl, rfl, rfl⟩ := hreads.unique hreads'
    exact ⟨_, _, rfl, hbase, guest_of_pointer hpointer⟩
  | removed _ hcalls => exact absurd hload hcalls.not_load
  | released hcalls => rcases hcalls with hcalls | hcalls <;> exact absurd hload hcalls.calls.not_load
  | placed hcalls =>
    obtain ⟨name, -, hcalls⟩ := hcalls.calls
    exact absurd hload hcalls.not_load
  | measured hcall => exact absurd hload hcall.calls.not_load
  | compared hcompares => exact absurd hload (hcompares.calls).not_load

theorem Work.of_heir (h : Work settings id s s' (some a) answer) :
    (∃ count, s.program.AllocatesQubits id count) ∨
      s.program.Calls id "__quantum__qis__m__body" ∨
        ∃ array bits index, s.program.ReadsElement id array bits index := by
  cases h with
  | placed hcall => exact .inl ⟨_, hcall⟩
  | measured hcall => exact .inr (.inl hcall.calls)
  | read hreads => exact .inr (.inr ⟨_, _, _, hreads⟩)

theorem Work.moves_qubits (h : Work settings id s s' heir answer) :
    s.extra.qubits.Moves s'.extra.qubits := by
  cases h with
  | removed _ _ hextra | read _ _ hextra | compared _ _ _ _ _ _ hextra => exact hextra ▸ .stay
  | released _ hqubits =>
    rcases hqubits with hsame | ⟨address, hreleased, -⟩
    · exact hsame ▸ .stay
    · exact .released hreleased
  | placed _ hgranted => exact .allocated hgranted
  | measured _ _ hqubits => exact hqubits ▸ .stay

theorem Work.results (h : Work settings id s s' heir answer) : s'.extra.results = s.extra.results ∨
    s.program.Calls id "__quantum__qis__m__body" := by
  cases h with
  | removed _ _ hextra | read _ _ hextra | compared _ _ _ _ _ _ hextra => exact .inl (by rw [hextra])
  | released _ _ hresults | placed _ _ hresults => exact .inl hresults
  | measured hcall => exact .inr hcall.calls

theorem Work.moves_results (h : Work settings id s s' heir answer) :
    s.extra.results.Moves s'.extra.results := by
  rcases h.results with hsame | hmeasures
  · exact hsame ▸ .stay
  · obtain ⟨start, a, -, hgranted, -⟩ := h.of_measures hmeasures
    exact .allocated hgranted

end Replacing

/-! ## 3. Addresses that have been given -/

namespace Transform

open Replacing
open Program (AllocatesQubits ReadsElement CallsWith Turned)

variable {settings : RuleSettings} {s : RuleState Addresses} {id a : InstrId} {ids xs ys : List InstrId}
  {heir answer : Option InstrId} {along : List InstrId} {of : Addresses → Allocator} {count start : Nat}

theorem visitAll_concat (rules : List (Rule Addresses)) (s : RuleState Addresses) (xs : List InstrId)
    (id : InstrId) : visitAll rules s (xs ++ [id]) = visit rules (visitAll rules s xs) id := by
  rw [visitAll_append, visitAll_cons, visitAll_nil]

/-- At its trial an instruction has been given addresses by an allocator, so many from `start` on, and it is
    to give way to a pointer to the first one. -/
structure Granted (settings : RuleSettings) (s : RuleState Addresses) (ids : List InstrId)
    (of : Addresses → Allocator) (id a : InstrId) (count start : Nat) : Prop where
  asked : ∃ xs ys name, ids = xs ++ id :: ys ∧
    Allocator.allocate name count (of (visitAll settings.rules s xs).extra) =
      .ok start (of (visitAll settings.rules s (xs ++ [id])).extra)
  scheduled : ⟨id, some a⟩ ∈ (visitAll settings.rules s ids).scheduled
  pointer : Guest (visitAll settings.rules s ids).program a settings.integerWidth start

theorem Attends.guest (hs : s.program.Sound) (h : Attends settings s ids)
    (hguest : Guest s.program a bits address) :
    Guest (visitAll settings.rules s ids).program a bits address :=
  h.keeps (fun t => Guest t.program a bits address) hs hguest
    fun _ _ _ _ _ _ _ _ _ hwork hbefore => hbefore.accepted hwork

theorem Attends.ready_after (hs : s.program.Sound) (h : Attends settings s (xs ++ id :: ys))
    (hwork : Treated settings id (visitAll settings.rules s xs) (visitAll settings.rules s (xs ++ [id]))
      (some a) answer along)
    (hguest : Guest (visitAll settings.rules s (xs ++ [id])).program a bits address) :
    ⟨id, some a⟩ ∈ (visitAll settings.rules s (xs ++ id :: ys)).scheduled ∧
      Guest (visitAll settings.rules s (xs ++ id :: ys)).program a bits address := by
  rw [List.append_cons] at h ⊢
  obtain ⟨hfirst, hrest⟩ := attends_append.mp h
  have hsound := (hfirst.extends hs).sound
  rw [visitAll_append]
  refine ⟨(hrest.scheduled hsound).subset ?_, hrest.guest hsound hguest⟩
  rw [hwork.entries]
  exact List.mem_append_right _ List.mem_cons_self

theorem Granted.append (h : Granted settings s xs of id a count start) (hs : s.program.Sound)
    (hattends : Attends settings s (xs ++ ys)) : Granted settings s (xs ++ ys) of id a count start := by
  obtain ⟨us, vs, name, rfl, hgranted⟩ := h.asked
  obtain ⟨hfirst, hrest⟩ := attends_append.mp hattends
  have hsound := (hfirst.extends hs).sound
  refine ⟨⟨us, vs ++ ys, name, by rw [List.append_assoc, List.cons_append], hgranted⟩, ?_, ?_⟩
  · rw [visitAll_append]
    exact (hrest.scheduled hsound).subset h.scheduled
  · rw [visitAll_append]
    exact hrest.guest hsound h.pointer

theorem Attends.granted_qubits (hs : s.program.Sound) (h : Attends settings s (xs ++ id :: ys))
    (hwork : Treated settings id (visitAll settings.rules s xs) (visitAll settings.rules s (xs ++ [id]))
      heir answer along) (hcall : s.program.AllocatesQubits id count) :
    ∃ a start, heir = some a ∧ answer = some a ∧
      Granted settings s (xs ++ id :: ys) (·.qubits) id a count start := by
  obtain ⟨ts, hts⟩ := (attends_append.mp h).1.turns hs
  obtain ⟨start, a, rfl, rfl, hgranted, hguest⟩ :=
    hwork.work.of_allocates ((hts.turned hs).allocatesQubits hcall)
  obtain ⟨hscheduled, hpointer⟩ := h.ready_after hs hwork hguest
  exact ⟨a, start, rfl, rfl, ⟨xs, ys, _, rfl, hgranted⟩, hscheduled, hpointer⟩

theorem Attends.granted_result (hs : s.program.Sound) (h : Attends settings s (xs ++ id :: ys))
    (hwork : Treated settings id (visitAll settings.rules s xs) (visitAll settings.rules s (xs ++ [id]))
      heir answer along) (hmeasures : s.program.Calls id "__quantum__qis__m__body") :
    ∃ a start, heir = some a ∧ Granted settings s (xs ++ id :: ys) (·.results) id a 1 start := by
  have hgrown := (attends_append.mp h).1.extends hs
  obtain ⟨start, a, rfl, hgranted, hguest⟩ :=
    hwork.work.of_measures ((hgrown.same_calls (by decide)).mpr hmeasures)
  obtain ⟨hscheduled, hpointer⟩ := h.ready_after hs hwork hguest
  exact ⟨a, start, rfl, ⟨xs, ys, _, rfl, hgranted⟩, hscheduled, hpointer⟩

theorem Attends.element (hs : s.program.Sound) (h : Attends settings s (xs ++ id :: ys))
    (hwork : Treated settings id (visitAll settings.rules s xs) (visitAll settings.rules s (xs ++ [id]))
      heir answer along) {array : InstrId} {index : Int}
    (hreads : s.program.ReadsElement id (.instr array) bits index)
    (hcall : s.program.AllocatesQubits array count) :
    ∃ (a x : InstrId) (start : Nat), heir = some a ∧
      ⟨id, some a⟩ ∈ (visitAll settings.rules s (xs ++ id :: ys)).scheduled ∧
      Guest (visitAll settings.rules s (xs ++ id :: ys)).program a bits
        (Word.normalize start settings.integerWidth + index) ∧
      Granted settings s (xs ++ id :: ys) (·.qubits) array x count start := by
  obtain ⟨hbefore, ⟨b, hid⟩, -, -⟩ := h.split hs
  have hxs := (attends_append.mp h).1
  obtain ⟨ts, hts⟩ := hxs.turns hs
  have hturned := hts.turned hs
  have hlive : (s.program.instr id).erased = false :=
    (hbefore.instr id hreads.lt).2.2.2.1.symm.trans (hbefore.sound.instr_live hid)
  obtain ⟨base, a, rfl, hbase, hguest⟩ := hwork.work.of_reads (hturned.readsElement hlive hreads)
  obtain ⟨hscheduled, hpointer⟩ := h.ready_after hs hwork hguest
  -- an array that has not been turned is still a call
  have hmem : array ∈ ts.map (·.1) := by
    by_contra hnot
    rw [Value.turnAll_of_not_mem hnot] at hbase
    obtain ⟨name, -, hcalls⟩ := (hturned.allocatesQubits hcall).calls
    exact hcalls.not_cast (Pattern.test_cast hbase.1)
  obtain ⟨x, hx, hsame⟩ := Value.turnAll_of_mem hturned.apart hmem
  rw [hsame] at hbase
  obtain ⟨us, vs, -, -, heir', along', rfl, -, -, hwork', -⟩ := hts.origin hx
  obtain ⟨y, start, -, hy, hgranted⟩ := hxs.granted_qubits hs hwork' hcall
  obtain rfl := Option.some.inj hy
  obtain rfl := hbase.unique hgranted.pointer.pointsAt
  exact ⟨a, x, start, rfl, hscheduled, hpointer, hgranted.append hs h⟩

theorem Attends.pointed (hs : s.program.Sound) (h : Attends settings s ids) (hstart : s.scheduled = [])
    (ha : ⟨id, some a⟩ ∈ (visitAll settings.rules s ids).scheduled) :
    ∃ xs ys answer along, ids = xs ++ id :: ys ∧
      Treated settings id (visitAll settings.rules s xs) (visitAll settings.rules s (xs ++ [id])) (some a)
        answer along := by
  rcases h.origin hs ha with hmem | ⟨xs, j, ys, heir, answer, along, rfl, hwork, hentry | ⟨hnone, -⟩⟩
  · rw [hstart] at hmem
    cases hmem
  · cases hentry
    exact ⟨xs, ys, answer, along, rfl, hwork⟩
  · cases hnone

section

variable (hof : ∀ {id s s' heir answer}, Work settings id s s' heir answer →
  (of s.extra).Moves (of s'.extra))

include hof

theorem Attends.extents (hs : s.program.Sound) (h : Attends settings s ids) (hbooks : (of s.extra).Sound) :
    (of (visitAll settings.rules s ids).extra).Sound ∧
      (of s.extra).nextId ≤ (of (visitAll settings.rules s ids).extra).nextId := by
  refine h.keeps (fun t => (of t.extra).Sound ∧ (of s.extra).nextId ≤ (of t.extra).nextId) hs
    ⟨hbooks, Nat.le_refl _⟩ fun id t t' _ _ _ _ _ _ hwork hbefore => ?_
  obtain ⟨hsound, hle⟩ := hbefore
  exact ((hof hwork.work).extent hsound).imp_right hle.trans

theorem Granted.below (h : Granted settings s ids of id a count start) (hs : s.program.Sound)
    (hattends : Attends settings s ids) (hbooks : (of s.extra).Sound) :
    start + count ≤ (of (visitAll settings.rules s ids).extra).nextId ∧
      (of (visitAll settings.rules s ids).extra).nextId < span 64 := by
  obtain ⟨xs, ys, name, rfl, hgranted⟩ := h.asked
  have hlast := (hattends.extents hof hs hbooks).1.extent_word
  rw [List.append_cons] at hattends hlast ⊢
  obtain ⟨hfirst, hrest⟩ := attends_append.mp hattends
  obtain ⟨hbefore, -⟩ := (attends_append.mp hfirst).1.extents hof hs hbooks
  obtain ⟨hafter, -⟩ := hfirst.extents hof hs hbooks
  rw [visitAll_append] at hlast ⊢
  exact ⟨(hbefore.below_extent hgranted).1.trans (hrest.extents hof (hfirst.extends hs).sound hafter).2, hlast⟩

end

/-! ## 4. Pointers in the end -/

end Transform

namespace Program

variable {p q : Program} {rs : List Replacement} {a : InstrId}

/-- A pointer made of a constant. -/
structure IsPointer (p : Program) (a : InstrId) (v : Value) : Prop where
  kind : (p.instr a).kind = .cast .inttoptr
  operands : (p.instr a).operands = [v]

/-- In the place of an instruction stands a pointer made of this constant. -/
structure GivesWay (p q : Program) (id a : InstrId) (v : Value) : Prop where
  pointer : q.IsPointer a v
  stands : ∃ b, id ∈ (p.block b).instrs ∧ a ∈ (q.block b).instrs

theorem Spliced.isPointer (h : Spliced rs p q)
    (hguest : Replacing.Guest p a bits address) : q.IsPointer a (.ofInt bits address) := by
  refine ⟨(h.instr a).1.trans hguest.kind, ?_⟩
  have hkept := h.operands a
  rw [hguest.operands] at hkept
  obtain ⟨w, ws, hsame, hnil, hoperands⟩ := List.forall₂_cons_left_iff.mp hkept
  rw [hoperands, hsame rfl fun _ _ => nofun, List.forall₂_nil_left_iff.mp hnil]

end Program

namespace Transform

open Replacing

variable {settings : RuleSettings} {s : TransformSettings} {c c' : Compilation}
  {stats stats' : TransformStatistics} {id a : InstrId}

/-- What was scheduled to give way to a pointer has done so. -/
theorem applyRules_pointer (hp : c.program.Sound)
    (h : applyRules settings.rules s stats c = .ok stats' c')
    (ha : ⟨id, some a⟩ ∈ (lastOf settings s c).scheduled)
    (hguest : Guest (lastOf settings s c).program a bits address) :
    c'.program.IsPointer a (.ofInt bits address) ∧ (id.index < c.program.instrs.size →
      c.program.GivesWay c'.program id a (.ofInt bits address)) := by
  obtain ⟨run, c₁, n, q, hwent, hready, -, hspliced, -, rfl⟩ := applyRules_went hp h
  obtain ⟨hframe, hinstr⟩ := hwent.sameFrame
  have hpointer := hspliced.isPointer (hguest.congr hinstr)
  refine ⟨hpointer, fun hlt => ⟨hpointer, ?_⟩⟩
  obtain ⟨xs, ys, answer, along, horder, -⟩ := hwent.attends.pointed hp rfl ha
  have htrial := hwent.attends
  rw [horder] at htrial
  obtain ⟨hbefore, ⟨b, hb⟩, -, -⟩ := htrial.split hp
  have hid := (hbefore.mem_instrs hp hlt).mp hb
  refine ⟨b, hid, ?_⟩
  rw [hspliced.listed b, (hframe.block b).2.1]
  refine List.mem_flatMap.mpr ⟨id, ((hwent.extends hp).listed b).subset hid, ?_⟩
  have hmem : ⟨id, some a⟩ ∈ run.scheduled.reverse := List.mem_reverse.mpr (hwent.scheduled ▸ ha)
  rw [show splice run.scheduled.reverse id = [a] from splice_of_mem hready.reverse.olds hmem]
  exact List.mem_singleton_self a

end Transform

end QirProfile
