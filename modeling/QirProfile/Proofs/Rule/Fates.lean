import QirProfile.Proofs.Allocator.Books
import QirProfile.Proofs.Rule.Growth
import QirProfile.Rule.Catalogue

/-!
# What is to become of instructions

A visit of an instruction changes the program and schedules the instruction to go, and with it others
that only prepared it. `Following` is what holds after some visits: it says what the schedule looks
like, and what is to become of each allocation and each release of qubits that was visited (`Fate`).
-/

namespace QirProfile

/-! ## 1. Room in an allocator -/

namespace Allocator

/-- An allocator that may grow has handed out at most the first `n` addresses. -/
structure Roomy (a : Allocator) (n : Nat) : Prop where
  sound : a.Sound
  grows : a.mayExtend = true
  extent : a.nextId ≤ n
  used : a.inUse ≤ n

theorem Roomy.mono {a : Allocator} {m n : Nat} (h : a.Roomy m) (hmn : m ≤ n) : a.Roomy n :=
  ⟨h.sound, h.grows, Nat.le_trans h.extent hmn, Nat.le_trans h.used hmn⟩

theorem extend_of_room {a : Allocator} {count : Nat} (hgrows : a.mayExtend = true)
    (hroom : a.nextId + count < span 64) : ∃ start b, extend count a = .ok start b := by
  rw [extend_apply, if_neg]
  · exact ⟨_, _, rfl⟩
  · rw [hgrows]
    rintro (hge | ⟨-, h⟩)
    · exact Nat.not_le.mpr hroom hge
    · cases h

theorem Roomy.allocate {a : Allocator} {n : Nat} (h : a.Roomy n) (name : String) (count : Nat)
    (hroom : n + count < span 64) :
    ∃ start b, Allocator.allocate name count a = .ok start b ∧ b.Roomy (n + count) := by
  have hgranted : ∃ start b, Allocator.allocate name count a = .ok start b := by
    have hextent := h.extent
    have hused := h.used
    rw [allocate_apply]
    split
    · exact ⟨_, _, rfl⟩
    rw [if_neg (by omega)]
    have htaken : ∃ start b,
        (if count = 1 ∧ a.reuse then takeOne else extend count) a = .ok start b := by
      split
      · rename_i hone
        rw [takeOne_apply]
        rcases hfree : a.takeFree with ⟨_ | x, b⟩
        · have hbooks := takeFree_none hfree
          have hnext : b.nextId = a.nextId := show b.books.nextId = a.books.nextId by rw [hbooks]
          have hgrows : b.mayExtend = a.mayExtend :=
            show b.books.mayExtend = a.books.mayExtend by rw [hbooks]
          exact extend_of_room (hgrows.trans h.grows) (by omega)
        · exact ⟨x, b, rfl⟩
      · exact extend_of_room h.grows (by omega)
    obtain ⟨start, b, hb⟩ := htaken
    rw [hb]
    exact ⟨_, _, rfl⟩
  obtain ⟨start, b, hb⟩ := hgranted
  have hsound : b.Sound := sound_allocated h.sound (allocate_ok hb)
  have hgrows := h.grows
  have hextent := h.extent
  have hused := h.used
  suffices b.mayExtend = true ∧ b.nextId ≤ n + count ∧ b.inUse ≤ n + count from
    ⟨start, b, hb, hsound, this.1, this.2.1, this.2.2⟩
  cases allocate_ok hb with
  | empty => exact ⟨h.grows, hextent, hused⟩
  | reused _ _ hbooks =>
    have hgrows' : b.books.mayExtend = true := by rw [hbooks]; exact h.grows
    have hnext : b.books.nextId = a.nextId := by rw [hbooks]; rfl
    have hin : b.books.inUse = a.inUse + 1 := by rw [hbooks]; rfl
    change b.nextId = _ at hnext
    change b.inUse = _ at hin
    exact ⟨hgrows', by omega, by omega⟩
  | fresh _ _ _ _ hbooks =>
    have hgrows' : b.books.mayExtend = true := by rw [hbooks]; exact h.grows
    have hnext : b.books.nextId = a.nextId + count := by rw [hbooks]; rfl
    have hin : b.books.inUse = a.inUse + count := by rw [hbooks]; rfl
    change b.nextId = _ at hnext
    change b.inUse = _ at hin
    exact ⟨hgrows', by omega, by omega⟩

end Allocator

/-! ## 2. Calls, and what goes along with them -/

namespace Program

variable {p q q₀ : Program} {T T' : Traces} {id i : InstrId} {name other : String}

/-- A call or invoke of a function by its name. -/
def Calls (p : Program) (id : InstrId) (function : String) : Prop :=
  ∃ k, (p.instr id).calledFunction? = some k ∧ (p.func k).name = function

instance (p : Program) (id : InstrId) (function : String) : Decidable (p.Calls id function) :=
  decidable_of_iff ((p.instr id).calledFunction?.any fun k => (p.func k).name = function) (by
    rw [Option.any_eq_true]
    simp only [Calls, decide_eq_true_eq])

theorem Calls.unique (h : p.Calls id name) (h' : p.Calls id other) : name = other := by
  obtain ⟨k, hk, rfl⟩ := h
  obtain ⟨k', hk', rfl⟩ := h'
  rw [hk, Option.some_inj] at hk'
  rw [hk']

theorem Calls.kind (h : p.Calls id name) :
    (∃ marker, (p.instr id).kind = .call marker) ∨ (p.instr id).kind = .invoke := by
  obtain ⟨k, hk, -⟩ := h
  unfold Instr.calledFunction? Instr.callee? Instr.isCall Instr.isInvoke at hk
  cases hkind : (p.instr id).kind with
  | call marker => exact .inl ⟨marker, rfl⟩
  | invoke => exact .inr rfl
  | _ =>
    rw [hkind] at hk
    cases hk

theorem Calls.not_cast {op : CastOp} (h : p.Calls id name) : (p.instr id).kind ≠ .cast op := by
  intro hcast
  rcases h.kind with ⟨marker, hcall⟩ | hinvoke
  · exact nomatch hcall.symm.trans hcast
  · exact nomatch hinvoke.symm.trans hcast

theorem Calls.not_load {align : Option Nat} (h : p.Calls id name) :
    (p.instr id).kind ≠ .load align := by
  intro hload
  rcases h.kind with ⟨marker, hcall⟩ | hinvoke
  · exact nomatch hcall.symm.trans hload
  · exact nomatch hinvoke.symm.trans hload

theorem Calls.lt (h : p.Calls id name) : id.index < p.instrs.size := by
  obtain ⟨k, hk, -⟩ := h
  by_contra hge
  rw [instr_of_le (Nat.not_lt.mp hge)] at hk
  cases hk

/-- Functions whose results only serve other instructions. -/
def bystanders : List String :=
  ["__quantum__rt__array_get_element_ptr_1d", "__quantum__rt__result_get_one",
   "__quantum__rt__result_get_zero"]

/-- An instruction that may go along with one that it has served. -/
def Bystander (p : Program) (id : InstrId) : Prop :=
  (p.instr id).kind = .cast .bitcast ∨ ∃ name ∈ bystanders, p.Calls id name

/-- A step of an access to an array element: the call that computes the pointer, or its conversion. -/
def ElementPart (p : Program) (id : InstrId) : Prop :=
  (p.instr id).kind = .cast .bitcast ∨ p.Calls id "__quantum__rt__array_get_element_ptr_1d"

instance (p : Program) (id : InstrId) : Decidable (p.ElementPart id) :=
  inferInstanceAs (Decidable (_ ∨ _))

theorem ElementPart.bystander (h : p.ElementPart id) : p.Bystander id :=
  h.imp_right fun hcalls => ⟨_, List.mem_cons_self, hcalls⟩

theorem Calls.not_bystander (h : p.Calls id name) (hname : name ∉ bystanders) :
    ¬ p.Bystander id := by
  rintro (hkind | ⟨other, hother, hcalls⟩)
  · exact h.not_cast hkind
  · exact hname (h.unique hcalls ▸ hother)

theorem not_bystander_of_load {align : Option Nat} (h : (p.instr id).kind = .load align) :
    ¬ p.Bystander id := by
  rintro (hcast | ⟨name, -, hcalls⟩)
  · exact nomatch h.symm.trans hcast
  · exact hcalls.not_load h

/-- A pointer to an address that stands in no block. -/
def pointer (ty : Ty) (bits : Nat) (address : Int) : Instr :=
  ⟨.cast .inttoptr, ty, [.ofInt bits address], none, none, false⟩

theorem Underway.calls (h : Underway p T id q₀ T' q) (hname : name ≠ "") (hi : q₀.Calls i name)
    (hlt : i.index < q₀.instrs.size) : q.Calls i name := by
  obtain ⟨k, hk, rfl⟩ := hi
  refine ⟨k, (h.kept i hlt).2.2.trans hk, congrArg Func.name (h.known k ?_)⟩
  by_contra hge
  exact hname (by rw [func_of_le (Nat.not_lt.mp hge)]; rfl)

theorem Underway.bystander (h : Underway p T id q₀ T' q) (hlt : i.index < q₀.instrs.size)
    (hi : q₀.Bystander i) : q.Bystander i := by
  rcases hi with hkind | ⟨name, hname, hcalls⟩
  · exact .inl ((h.kept i hlt).1.trans hkind)
  · refine .inr ⟨name, hname, h.calls ?_ hcalls hlt⟩
    rintro rfl
    exact absurd hname (by decide)

theorem Underway.pointer (h : Underway p T id q₀ T' q) {ty : Ty} {bits : Nat} {address : Int}
    (hid : id.index < p.instrs.size) (hi : p.instrs.size ≤ i.index)
    (hpointer : q₀.instr i = pointer ty bits address) :
    q.instr i = Program.pointer ty bits address := by
  refine (h.unchanged i (instr_lt_of_live (by rw [hpointer]; rfl)) ?_ ?_).trans hpointer
  · rintro rfl
    exact Nat.not_le.mpr hid hi
  · rw [hpointer]
    rfl

end Program

/-! ## 3. Schedules -/

/-- What is to become of a request to the qubit allocator. -/
inductive Fate where
  /-- An allocation gives way to a pointer to its first address. -/
  | placed (start count : Nat)
  /-- A release goes. -/
  | dropped
  deriving DecidableEq

namespace Replacing

open Program (Traces Grown Underway Bystander Calls pointer)
open Allocator (Roomy)

variable {p : Program} {done : List InstrId} {fates : InstrId → Option Fate} {T : Traces}
  {s : RuleState Addresses} {id : InstrId}

/-- The program, the schedule and the empty arrays are such that an instruction will have its fate. -/
def Assured (p : Program) (T : Traces) (s : RuleState Addresses) (i : InstrId) : Fate → Prop
  | .placed start count =>
    ⟨i, some (T.turned i)⟩ ∈ s.scheduled ∧
      s.program.instr (T.turned i) = pointer (p.instr i).ty 64 start ∧
      (T.turned i ∈ s.extra.emptyArrays ↔ count = 0) ∧ T.front i = [] ∧ T.back i = []
  | .dropped => ⟨i, none⟩ ∈ s.scheduled ∧ T.front i = [] ∧ T.back i = []

/-- Rules have been tried on the instructions in `done` of the program `p`, from the last to the
    first. -/
structure Following (p : Program) (done : List InstrId) (fates : InstrId → Option Fate)
    (T : Traces) (s : RuleState Addresses) : Prop extends Grown p T s.program where
  visited : done.Nodup
  stand : ∀ i ∈ done, (p.instr i).parent.isSome = true
  untouched : ∀ i, i ∉ done → T.turned i = i ∧ T.front i = [] ∧ T.back i = []
  named : ∀ i : InstrId, i.index < p.instrs.size → i ∉ done →
    (s.program.instr i).name = (p.instr i).name
  turned : ∀ i, T.turned i = i ∨ (∃ start count, fates i = some (.placed start count)) ∨
    s.program.Calls i "__quantum__rt__result_equal"
  olds : (s.scheduled.map (·.old)).Nodup
  scheduled : ∀ r ∈ s.scheduled, (s.program.instr r.old).erased = false ∧
    (r.old ∈ done ∨ r.new = none ∧ s.program.Bystander r.old)
  news : ∀ r ∈ s.scheduled, ∀ a, r.new = some a → r.old ∈ done ∧ p.instrs.size ≤ a.index ∧
    ∃ ty bits address, s.program.instr a = pointer ty bits address
  distinct : (s.scheduled.filterMap (·.new)).Nodup
  fated : ∀ i fate, fates i = some fate → i ∈ done ∧ Assured p T s i fate
  empties : ∀ a ∈ s.extra.emptyArrays, a.index < s.program.instrs.size
  room : Roomy s.extra.results done.length

theorem Following.start (hp : p.Sound) {addresses : Addresses}
    (hroom : Roomy addresses.results 0) (hempty : addresses.emptyArrays = []) :
    Following p [] (fun _ => none) {} { program := p, extra := addresses } where
  toGrown := .start hp
  visited := .nil
  stand := nofun
  untouched _ _ := ⟨rfl, rfl, rfl⟩
  named _ _ _ := rfl
  turned _ := .inl rfl
  olds := .nil
  scheduled := nofun
  news := nofun
  distinct := .nil
  fated := nofun
  empties a ha := by
    rw [hempty] at ha
    cases ha
  room := hroom

theorem Following.not_scheduled (h : Following p done fates T s) (hnew : id ∉ done)
    (hself : ¬ s.program.Bystander id) : id ∉ s.scheduled.map (·.old) := by
  intro hmem
  obtain ⟨r, hr, rfl⟩ := List.mem_map.mp hmem
  exact (h.scheduled r hr).2.elim hnew fun hby => hself hby.2

theorem Following.new_lt (h : Following p done fates T s) {r : Replacement} (hr : r ∈ s.scheduled)
    {a : InstrId} (ha : r.new = some a) : a.index < s.program.instrs.size := by
  obtain ⟨-, -, ty, bits, address, hpointer⟩ := h.news r hr a ha
  exact Program.instr_lt_of_live (by rw [hpointer]; rfl)

theorem Assured.elsewhere {T' : Traces} {s' : RuleState Addresses} {i : InstrId} {fate : Fate}
    (h : Following p done fates T s) (hi : Assured p T s i fate) (hid : id.index < p.instrs.size)
    (hne : i ≠ id) (hu : Underway p T id s.program T' s'.program)
    (hscheduled : s.scheduled ⊆ s'.scheduled)
    (hkept : s.extra.emptyArrays ⊆ s'.extra.emptyArrays)
    (hempty : ∀ a ∈ s'.extra.emptyArrays, a ∈ s.extra.emptyArrays ∨
      s.program.instrs.size ≤ a.index) : Assured p T' s' i fate := by
  obtain ⟨hturned, hfront, hback⟩ := hu.elsewhere i hne
  cases fate with
  | placed start count =>
    obtain ⟨hentry, hpointer, hnone, hf, hb⟩ := hi
    have hlt := h.new_lt hentry rfl
    obtain ⟨-, hfresh, -⟩ := h.news _ hentry _ rfl
    unfold Assured
    rw [hturned, hfront, hback]
    refine ⟨hscheduled hentry, hu.pointer hid hfresh hpointer, ⟨fun ha => ?_, fun hcount => ?_⟩,
      hf, hb⟩
    · exact hnone.mp ((hempty _ ha).resolve_right (Nat.not_le.mpr hlt))
    · exact hkept (hnone.mpr hcount)
  | dropped =>
    unfold Assured
    rw [hfront, hback]
    exact ⟨hscheduled hi.1, hi.2⟩

/-- The step: a visit settles what becomes of one more instruction. -/
theorem Following.step {T' : Traces} {s' : RuleState Addresses} {fates' : InstrId → Option Fate}
    (h : Following p done fates T s) (entry : Option (Option InstrId))
    (hid : (p.instr id).parent.isSome = true) (hnew : id ∉ done)
    (hu : Underway p T id s.program T' s'.program)
    (hentry : s'.scheduled = s.scheduled ++ (entry.map (Replacement.mk id)).toList)
    (hself : entry.isSome = true → ¬ s.program.Bystander id)
    (hpointer : ∀ a, entry = some (some a) → s.program.instrs.size ≤ a.index ∧
      ∃ ty bits address, s'.program.instr a = pointer ty bits address)
    (hturned : T'.turned id = id ∨ (∃ start count, fates' id = some (.placed start count)) ∨
      s.program.Calls id "__quantum__rt__result_equal")
    (hfates : ∀ i, i ≠ id → fates' i = fates i)
    (hfate : ∀ fate, fates' id = some fate → Assured p T' s' id fate)
    (hkept : s.extra.emptyArrays ⊆ s'.extra.emptyArrays)
    (hempty : ∀ a ∈ s'.extra.emptyArrays, a ∈ s.extra.emptyArrays ∨
      s.program.instrs.size ≤ a.index ∧ a.index < s'.program.instrs.size)
    (hroom : Roomy s'.extra.results (done.length + 1)) :
    Following p (id :: done) fates' T' s' := by
  obtain ⟨b, hb⟩ := Option.isSome_iff_exists.mp hid
  have hlt : id.index < p.instrs.size := Program.instr_lt_of_parent hb
  have hlive : (s.program.instr id).erased = false :=
    (h.instr id hlt).2.2.2.trans (h.base.instr_live (h.base.mem_instrs.mpr hb))
  have hmem : ∀ r ∈ s'.scheduled, r ∈ s.scheduled ∨ ∃ new, entry = some new ∧ r = ⟨id, new⟩ := by
    intro r hr
    rw [hentry, List.mem_append, Option.mem_toList, Option.map_eq_some_iff] at hr
    exact hr.imp_right fun ⟨new, hnew, he⟩ => ⟨new, hnew, he.symm⟩
  have hsub : s.scheduled ⊆ s'.scheduled := by
    rw [hentry]
    exact List.subset_append_left _ _
  have hequal : ∀ {j}, s.program.Calls j "__quantum__rt__result_equal" →
      s'.program.Calls j "__quantum__rt__result_equal" := fun hj => hu.calls (by decide) hj hj.lt
  exact
    { toGrown := hu.toGrown
      visited := List.nodup_cons.mpr ⟨hnew, h.visited⟩
      stand := fun i hi => by
        rcases List.mem_cons.mp hi with rfl | hi
        · exact hid
        · exact h.stand i hi
      untouched := fun i hi => by
        obtain ⟨hne, hi⟩ := not_or.mp (mt List.mem_cons.mpr hi)
        obtain ⟨ht, hf, hk⟩ := hu.elsewhere i hne
        rw [ht, hf, hk]
        exact h.untouched i hi
      named := fun i hi hother => by
        obtain ⟨hne, hother⟩ := not_or.mp (mt List.mem_cons.mpr hother)
        exact (hu.named i (Nat.lt_of_lt_of_le hi h.instrs) hne).trans (h.named i hi hother)
      turned := fun i => by
        by_cases hi : i = id
        · subst hi
          exact hturned.imp_right fun hwhy => hwhy.imp_right hequal
        · rw [(hu.elsewhere i hi).1, hfates i hi]
          exact (h.turned i).imp_right fun hwhy => hwhy.imp_right hequal
      olds := by
        rw [hentry, List.map_append]
        cases entry with
        | none => exact (List.append_nil _).symm ▸ h.olds
        | some new =>
          change (_ ++ [id]).Nodup
          rw [← List.concat_eq_append]
          exact .concat (h.not_scheduled hnew (hself rfl)) h.olds
      scheduled := fun r hr => by
        rcases hmem r hr with hr | ⟨new, -, rfl⟩
        · obtain ⟨hgone, hwhy⟩ := h.scheduled r hr
          have hrlt := Program.instr_lt_of_live hgone
          exact ⟨(hu.kept r.old hrlt).2.1.trans hgone,
            hwhy.imp (List.mem_cons_of_mem id) fun hby => ⟨hby.1, hu.bystander hrlt hby.2⟩⟩
        · exact ⟨(hu.kept id (Program.instr_lt_of_live hlive)).2.1.trans hlive,
            .inl List.mem_cons_self⟩
      news := fun r hr a ha => by
        rcases hmem r hr with hr | ⟨new, hnew, rfl⟩
        · obtain ⟨hdone, hfresh, ty, bits, address, hinstr⟩ := h.news r hr a ha
          exact ⟨List.mem_cons_of_mem id hdone, hfresh, ty, bits, address,
            hu.pointer hlt hfresh hinstr⟩
        · obtain rfl : new = some a := ha
          obtain ⟨hfresh, hinstr⟩ := hpointer a hnew
          exact ⟨List.mem_cons_self, Nat.le_trans h.instrs hfresh, hinstr⟩
      distinct := by
        rw [hentry, List.filterMap_append]
        cases entry with
        | none => exact (List.append_nil _).symm ▸ h.distinct
        | some new =>
          cases new with
          | none => exact (List.append_nil _).symm ▸ h.distinct
          | some a =>
            change (_ ++ [a]).Nodup
            rw [← List.concat_eq_append]
            refine .concat (fun hi => ?_) h.distinct
            obtain ⟨r, hr, hri⟩ := List.mem_filterMap.mp hi
            exact Nat.not_le.mpr (h.new_lt hr hri) (hpointer a rfl).1
      fated := fun i fate hi => by
        by_cases hne : i = id
        · subst hne
          exact ⟨List.mem_cons_self, hfate fate hi⟩
        · rw [hfates i hne] at hi
          obtain ⟨hdone, hassured⟩ := h.fated i fate hi
          exact ⟨List.mem_cons_of_mem id hdone, hassured.elsewhere h hlt hne hu hsub hkept
            fun a ha => (hempty a ha).imp_right (·.1)⟩
      empties := fun a ha => (hempty a ha).elim
        (fun ha => Nat.lt_of_lt_of_le (h.empties a ha) hu.grown) (·.2)
      room := hroom }

theorem Following.along (h : Following p done fates T s) {i : InstrId}
    (hlive : (s.program.instr i).erased = false) (hby : s.program.Bystander i)
    (hnot : i ∉ s.scheduled.map (·.old)) :
    Following p done fates T { s with scheduled := s.scheduled ++ [⟨i, none⟩] } where
  toGrown := h.toGrown
  visited := h.visited
  stand := h.stand
  untouched := h.untouched
  named := h.named
  turned := h.turned
  olds := by
    rw [List.map_append]
    change (_ ++ [i]).Nodup
    rw [← List.concat_eq_append]
    exact .concat hnot h.olds
  scheduled r hr := by
    rcases List.mem_append.mp hr with hr | hr
    · exact h.scheduled r hr
    · obtain rfl := List.mem_singleton.mp hr
      exact ⟨hlive, .inr ⟨rfl, hby⟩⟩
  news r hr a ha := by
    rcases List.mem_append.mp hr with hr | hr
    · exact h.news r hr a ha
    · obtain rfl := List.mem_singleton.mp hr
      cases ha
  distinct := by
    rw [List.filterMap_append]
    exact (List.append_nil _).symm ▸ h.distinct
  fated j fate hj := by
    obtain ⟨hdone, hassured⟩ := h.fated j fate hj
    refine ⟨hdone, ?_⟩
    cases fate with
    | placed start count => exact ⟨List.mem_append_left _ hassured.1, hassured.2⟩
    | dropped => exact ⟨List.mem_append_left _ hassured.1, hassured.2⟩
  empties := h.empties
  room := h.room

end Replacing

end QirProfile
