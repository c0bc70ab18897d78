import QirProfile.Proofs.Rule.Additions
import QirProfile.Proofs.Rule.Careful

/-!
# What an accepted instruction comes to

Where a rule accepts an instruction, one of six things has happened: the call was only bookkeeping, it
gave addresses back, it was given addresses, an element of an array was read, a result was measured, or
a result was compared. `Work` tells them apart, and says what each has to do with the allocators and
with the instructions that were put in. `Worked` adds what becomes of the program and of the schedule.
-/

namespace QirProfile

open Allocator (Request)

variable {negated : Bool} {count : Nat} {name : String} {q : Program} {v : Value}

/-- An allocator has refused a request. -/
def CompileError.IsRefusal (e : CompileError) : Prop := ∃ cause, e = .allocation cause

namespace Program

variable {p q q₀ : Program} {T T' : Traces} {id i : InstrId} {name : String}

/-! ## 1. Instructions that rules are for -/

/-- A fetch of a canonical result. -/
def Fetch (p : Program) (id : InstrId) : Prop :=
  p.Calls id "__quantum__rt__result_get_one" ∨ p.Calls id "__quantum__rt__result_get_zero"

/-- An instruction that rules are for: a load, or a call of a function that rules put no calls of in, and
    whose results do not only serve other instructions. -/
def Target (p : Program) (id : InstrId) : Prop :=
  (∃ align, (p.instr id).kind = .load align) ∨
    ∃ name ∉ "" :: (bystanders ++ insertedCalls), p.Calls id name

theorem Calls.target (h : p.Calls i name) (hname : name ∉ "" :: (bystanders ++ insertedCalls)) :
    p.Target i :=
  .inr ⟨name, hname, h⟩

theorem Target.not_bystander (h : p.Target i) : ¬ p.Bystander i := by
  rcases h with ⟨align, hkind⟩ | ⟨name, hname, hcalls⟩
  · exact not_bystander_of_load hkind
  · exact hcalls.not_bystander fun hmem =>
      hname (List.mem_cons_of_mem _ (List.mem_append_left _ hmem))

theorem Target.not_cast (h : p.Target i) (op : CastOp) : (p.instr i).kind ≠ .cast op := by
  rcases h with ⟨align, hload⟩ | ⟨name, -, hcalls⟩
  · rw [hload]
    nofun
  · exact hcalls.not_cast

theorem Fetch.bystander (h : p.Fetch i) : p.Bystander i := by
  rcases h with hcalls | hcalls <;> exact .inr ⟨_, by decide, hcalls⟩

theorem fetch_of_canonical (h : p.Calls i (canonicalFetch negated)) : p.Fetch i := by
  cases negated with
  | false => exact .inl h
  | true => exact .inr h

theorem Underway.elementPart (h : Underway p T id q₀ T' q) (hlt : i.index < q₀.instrs.size) :
    q₀.ElementPart i → q.ElementPart i :=
  Or.imp (h.kept i hlt).1.trans fun hi => h.calls (by decide) hi hlt

theorem Underway.fetch (h : Underway p T id q₀ T' q) (hlt : i.index < q₀.instrs.size) :
    q₀.Fetch i → q.Fetch i :=
  Or.imp (fun hi => h.calls (by decide) hi hlt) fun hi => h.calls (by decide) hi hlt

theorem Underway.target (h : Underway p T id q₀ T' q) (hlt : i.index < q₀.instrs.size) :
    q₀.Target i → q.Target i := by
  rintro (⟨align, hkind⟩ | ⟨name, hname, hcalls⟩)
  · exact .inl ⟨align, (h.kept i hlt).1.trans hkind⟩
  · exact .inr ⟨name, hname, h.calls (fun he => hname (he ▸ List.mem_cons_self)) hcalls hlt⟩

/-- An instruction says what a read of a result says, or the opposite of it. -/
inductive Tells (p : Program) (read : InstrId) : (negated : Bool) → (answer : InstrId) → Prop where
  | same : Tells p read false read
  | opposite {answer : InstrId} {bits : Nat} (hkind : (p.instr answer).kind = .binary .xor)
      (hoperands : (p.instr answer).operands = [.instr read, .ofInt bits (-1)])
      (hlive : (p.instr answer).erased = false) (hattached : (p.instr answer).parent.isSome = true) :
      Tells p read true answer

theorem Tells.answered {read answer : InstrId} (h : p.Tells read negated answer)
    (hne : read ≠ id) :
    ((p.takeName id answer).replaceUses (.instr id) (.instr answer)).Tells read negated answer := by
  cases h with
  | same => exact .same
  | @opposite _ bits hkind hoperands hlive hattached =>
    obtain ⟨n, hn⟩ := instr_answered id answer hlive
    refine @Tells.opposite _ _ _ bits ?_ ?_ ?_ ?_ <;> rw [hn]
    · exact hkind
    · change (p.instr answer).operands.map _ = _
      rw [hoperands, List.map_cons, List.map_singleton, Value.turn_instr_of_ne hne, Value.turn_ofInt]
    · exact hlive
    · exact hattached

end Program

namespace Replacing

open Program (Extends Modest Traces Grown Underway Fetch ElementPart CallsWith PointsAt AllocatesQubits
  ReadsElement Compares Tells pointer insertedCalls)
open Pattern

variable {settings : RuleSettings} {p : Program} {T T' : Traces} {s s' : RuleState Addresses}
  {id i : InstrId} {b : BlockId} {c : Captures} {heir answer : Option InstrId} {along : List InstrId}

/-! ## 2. What calls ask for -/

/-- What a call asks of the qubit allocator; the release of an empty array asks for nothing. -/
inductive Asks (s : RuleState Addresses) (id : InstrId) : Option Request → Prop where
  | qubit (h : s.program.CallsWith id "__quantum__rt__qubit_allocate" [])
      (hty : (s.program.instr id).ty.isPtr = true) :
      Asks s id (some (.allocate (allocationName (s.program.instr id)) 1))
  | array {v : Value} {size : Int}
      (h : s.program.CallsWith id "__quantum__rt__qubit_allocate_array" [v])
      (hsize : v.toInt? = some size) (hpos : 0 ≤ size)
      (hty : (s.program.instr id).ty.isPtr = true) :
      Asks s id (some (.allocate (allocationName (s.program.instr id)) size.toNat))
  | release {v : Value} {address : Int}
      (h : s.program.CallsWith id "__quantum__rt__qubit_release" [v])
      (hv : s.program.PointsAt v address) (hpos : 0 ≤ address) :
      Asks s id (some (.release address.toNat))
  | releaseArray {v : Value} {address : Int}
      (h : s.program.CallsWith id "__quantum__rt__qubit_release_array" [v])
      (hv : s.program.PointsAt v address) (hpos : 0 ≤ address)
      (hfull : v.toInstr?.any s.extra.emptyArrays.contains = false) :
      Asks s id (some (.release address.toNat))
  | releaseEmpty {v : Value} {address : Int}
      (h : s.program.CallsWith id "__quantum__rt__qubit_release_array" [v])
      (hv : s.program.PointsAt v address)
      (hempty : v.toInstr?.any s.extra.emptyArrays.contains = true) : Asks s id none

theorem asks_of_allocates (h : s.program.AllocatesQubits id count)
    (hty : (s.program.instr id).ty.isPtr = true) :
    Asks s id (some (.allocate (allocationName (s.program.instr id)) count)) := by
  cases h with
  | one h => exact .qubit h hty
  | array hsize h =>
    subst hsize
    exact .array h rfl (Int.natCast_nonneg count) hty

/-- The allocator refuses a request. -/
def Refuses (a : Allocator) (r : Request) (cause : AllocationError) : Prop :=
  ∃ b, r.perform a = .error cause b

/-- The error where the qubit allocator has refused what a call asks for. -/
def Refused (s : RuleState Addresses) (id : InstrId) (e : CompileError) : Prop :=
  ∃ r cause, Asks s id (some r) ∧ Refuses s.extra.qubits r cause ∧ e = .allocation cause

/-- The errors of a visit: what is asked for is refused, or there is no address for a result. -/
def Fails (s : RuleState Addresses) (id : InstrId) (e : CompileError) : Prop :=
  Refused s id e ∨ ∃ cause, e = .allocation cause ∧
    Refuses s.extra.results (.allocate (allocationName (s.program.instr id)) 1) cause

theorem Fails.isRefusal {e : CompileError} (h : Fails s id e) : e.IsRefusal := by
  rcases h with ⟨-, cause, -, -, rfl⟩ | ⟨cause, rfl, -⟩ <;> exact ⟨cause, rfl⟩

section

variable {α : Type} {f : Allocating α} {a : α} {allocator : Allocator} {cause : AllocationError}

theorem onQubits_of_ok (h : f s.extra.qubits = .ok a allocator) :
    onQubits f s = .ok a { s with extra.qubits := allocator } := by
  unfold onQubits
  rw [h]

theorem onQubits_of_error (h : f s.extra.qubits = .error cause allocator) :
    onQubits f s = .error (.allocation cause) { s with extra.qubits := allocator } := by
  unfold onQubits
  rw [h]

theorem refuses_allocate {a : Allocator}
    (h : Allocator.allocate name count a = .error cause allocator) :
    Refuses a (.allocate name count) cause :=
  ⟨allocator, by simp [Request.perform, Functor.map, EStateM.map, h]⟩

theorem refuses_release {a : Allocator} {address : Nat}
    (h : Allocator.release address a = .error cause allocator) : Refuses a (.release address) cause :=
  ⟨allocator, by simp [Request.perform, Functor.map, EStateM.map, h]⟩

end

/-! ## 3. Six kinds of work -/

theorem not_inserted_of_removed (h : name ∈ settings.removed) :
    name ∉ "" :: insertedCalls := by
  have hother : ∀ n ∈ "" :: insertedCalls,
      n ∉ referenceCounting ++ aliasCounting ++ stringSupport := by decide
  exact fun hmem => not_mem_removed (hother name hmem) h

/-- **What an accepted instruction comes to**, with what takes its place and what answers for its
    uses. -/
inductive Work (settings : RuleSettings) (id : InstrId) (s s' : RuleState Addresses) :
    (heir answer : Option InstrId) → Prop where
  | removed {name : String} (hname : name ∈ settings.removed) (hcalls : s.program.Calls id name)
      (hextra : s'.extra = s.extra) : Work settings id s s' none none
  | released {v : Value} (hcall : s.program.CallsWith id "__quantum__rt__qubit_release" [v] ∨
        s.program.CallsWith id "__quantum__rt__qubit_release_array" [v])
      (hqubits : s'.extra.qubits = s.extra.qubits ∨
        ∃ address, Allocator.release address s.extra.qubits = .ok () s'.extra.qubits ∧
          Asks s id (some (.release address)))
      (hresults : s'.extra.results = s.extra.results)
      (hempties : s'.extra.emptyArrays = s.extra.emptyArrays) : Work settings id s s' none none
  | placed {count start : Nat} {a : InstrId} (hcall : s.program.AllocatesQubits id count)
      (hgranted : Allocator.allocate (allocationName (s.program.instr id)) count s.extra.qubits =
        .ok start s'.extra.qubits)
      (hresults : s'.extra.results = s.extra.results) (hnew : s.program.instrs.size ≤ a.index)
      (hpointer : s'.program.instr a =
        pointer (s.program.instr id).ty settings.integerWidth start)
      (hty : (s.program.instr id).ty.isPtr = true) : Work settings id s s' (some a) (some a)
  | read {array : Value} {bits : Nat} {base index : Int} {a : InstrId}
      (hreads : s.program.ReadsElement id array bits index) (hbase : s.program.PointsAt array base)
      (hextra : s'.extra = s.extra) (hnew : s.program.instrs.size ≤ a.index)
      (hpointer : s'.program.instr a = pointer (s.program.instr id).ty bits (base + index)) :
      Work settings id s s' (some a) none
  | measured {qubit : Value} {start : Nat} {a call : InstrId}
      (hcall : s.program.CallsWith id "__quantum__qis__m__body" [qubit])
      (hgranted : Allocator.allocate (allocationName (s.program.instr id)) 1 s.extra.results =
        .ok start s'.extra.results)
      (hqubits : s'.extra.qubits = s.extra.qubits) (hnew : s.program.instrs.size ≤ a.index)
      (hpointer : s'.program.instr a =
        pointer (s.program.instr id).ty settings.integerWidth start)
      (hinto : s'.program.CallsWith call "__quantum__qis__mz__body" [qubit, .instr a])
      (hempties : s'.extra.emptyArrays = s.extra.emptyArrays) : Work settings id s s' (some a) none
  | compared {result : Value} {fetch read answer : InstrId} {negated : Bool}
      (hcompares : s.program.Compares id result fetch negated)
      (hnew : s.program.instrs.size ≤ read.index ∧ s.program.instrs.size ≤ answer.index)
      (hread : s'.program.CallsWith read "__quantum__qis__read_result__body"
        [result.turn id (some answer)])
      (hattached : (s'.program.instr read).parent.isSome = true)
      (htells : s'.program.Tells read negated answer)
      (hfetch : fetch ∈ s'.scheduled.map (·.old) ∨ ∃ user ∈ s'.program.usersOf (.instr fetch),
        ∀ i, user = .instr i → i ∉ s'.scheduled.map (·.old))
      (hextra : s'.extra = s.extra) : Work settings id s s' none (some answer)

theorem Work.target (h : Work settings id s s' heir answer) : s.program.Target id := by
  cases h with
  | @removed name hname hcalls =>
    have hother : ∀ n ∈ "" :: (Program.bystanders ++ insertedCalls),
        n ∉ referenceCounting ++ aliasCounting ++ stringSupport := by decide
    exact hcalls.target fun hmem => not_mem_removed (hother name hmem) hname
  | released hcall => exact hcall.elim (·.calls.target (by decide)) (·.calls.target (by decide))
  | placed hcall =>
    cases hcall with
    | one hcall => exact hcall.calls.target (by decide)
    | array _ hcall => exact hcall.calls.target (by decide)
  | read hreads => exact .inl hreads.load
  | measured hcall => exact hcall.calls.target (by decide)
  | compared hcompares => exact hcompares.calls.target (by decide)

theorem Work.pointer (h : Work settings id s s' heir answer) {a : InstrId} (ha : heir = some a) :
    s.program.instrs.size ≤ a.index ∧
      ∃ ty bits address, s'.program.instr a = Program.pointer ty bits address := by
  cases h with
  | removed | released | compared => cases ha
  | placed _ _ _ hnew hpointer | read _ _ _ hnew hpointer | measured _ _ _ hnew hpointer =>
    cases ha
    exact ⟨hnew, _, _, _, hpointer⟩

/-! ## 4. Visits at which a rule has accepted -/

/-- An instruction that may go along with the visited one: a fetch of a canonical result, or a part of
    the access that the visited load makes. No block is closed by it. -/
structure Serves (p : Program) (id : InstrId) (heir : Option InstrId) (i : InstrId) : Prop where
  part : p.Fetch i ∨ p.ElementPart i ∧ (∃ align, (p.instr id).kind = .load align) ∧ heir.isSome = true
  loose : ¬ (p.instr i).Closes

/-- The visited instruction is scheduled, and behind it all that goes along, which was not scheduled
    before. -/
structure Queued (p : Program) (T : Traces) (id : InstrId) (s : RuleState Addresses) (T' : Traces)
    (s' : RuleState Addresses) (heir : Option InstrId) (along : List InstrId) : Prop
    extends Underway p T id s.program T' s'.program where
  entries : s'.scheduled = s.scheduled ++ ⟨id, heir⟩ :: along.map fun i => ⟨i, none⟩
  distinct : along.Nodup
  apart : ∀ i ∈ along, i ≠ id ∧ i ∉ s.scheduled.map (·.old)
  served : ∀ i ∈ along, (s.program.instr i).erased = false ∧ Serves s.program id heir i

theorem Queued.mem_olds (h : Queued p T id s T' s' heir along) :
    i ∈ s'.scheduled.map (·.old) ↔ i ∈ s.scheduled.map (·.old) ∨ i = id ∨ i ∈ along := by
  rw [h.entries, List.map_append, List.mem_append, List.map_cons, List.mem_cons, List.map_map]
  simp

theorem Queued.once (h : Queued p T id s T' s' heir along)
    (hi : (s.program.instr i).erased = false ∧ Serves s.program id heir i) :
    ∃ t, scheduleDeleteOnce i s' = .ok () t ∧ t.program = s'.program ∧ t.extra = s'.extra ∧
      i ∈ t.scheduled.map (·.old) ∧ ∃ along', Queued p T id s T' t heir along' := by
  have hasked : isScheduled i s' = .ok (s'.scheduled.any (·.old == i)) s' := rfl
  unfold scheduleDeleteOnce
  by_cases hold : i ∈ s'.scheduled.map (·.old)
  · have hany : s'.scheduled.any (·.old == i) = true := by
      obtain ⟨r, hr, rfl⟩ := List.mem_map.mp hold
      exact List.any_eq_true.mpr ⟨r, hr, beq_self_eq_true _⟩
    rw [bind_of_ok hasked, hany]
    exact ⟨s', rfl, rfl, rfl, hold, along, h⟩
  · have hany : s'.scheduled.any (·.old == i) = false := by
      refine List.any_eq_false.mpr fun r hr heq => hold ?_
      exact List.mem_map.mpr ⟨r, hr, beq_iff_eq.mp heq⟩
    rw [bind_of_ok hasked, hany]
    obtain ⟨hnot, hne, hother⟩ := not_or.mp (mt h.mem_olds.mpr hold) |>.imp_right not_or.mp
    refine ⟨{ s' with scheduled := s'.scheduled ++ [⟨i, none⟩] }, rfl, rfl, rfl, by simp, along ++ [i],
      h.toUnderway, ?_, ?_, ?_, ?_⟩
    · change s'.scheduled ++ _ = _
      rw [h.entries, List.append_assoc, List.map_append, List.cons_append]
      rfl
    · rw [← List.concat_eq_append]
      exact .concat hother h.distinct
    · exact List.forall_mem_append.mpr ⟨h.apart, List.forall_mem_singleton.mpr ⟨hne, hnot⟩⟩
    · exact List.forall_mem_append.mpr ⟨h.served, List.forall_mem_singleton.mpr hi⟩

theorem Queued.optionally {o : Option InstrId} (h : Queued p T id s T' s' heir along)
    (ho : ∀ i, o = some i → (s.program.instr i).erased = false ∧ Serves s.program id heir i) :
    ∃ t, o.forM scheduleDeleteOnce s' = .ok ⟨⟩ t ∧ t.program = s'.program ∧ t.extra = s'.extra ∧
      ∃ along', Queued p T id s T' t heir along' := by
  cases o with
  | none => exact ⟨s', rfl, rfl, rfl, along, h⟩
  | some i =>
    obtain ⟨t, ht, hprogram, hextra, -, hqueued⟩ := h.once (ho i rfl)
    exact ⟨t, ht, hprogram, hextra, hqueued⟩

/-- **What the visit of an instruction has done where a rule has accepted**: what the work is, and what
    has become of the operands and of the schedule. -/
structure Worked (settings : RuleSettings) (p : Program) (T : Traces) (id : InstrId)
    (s : RuleState Addresses) (T' : Traces) (s' : RuleState Addresses) (heir answer : Option InstrId)
    (along : List InstrId) : Prop extends Queued p T id s T' s' heir along where
  work : Work settings id s s' heir answer
  modest : s.program.Modest s'.program
  uses : ∀ i, (s.program.instr i).erased = false → (s'.program.instr i).operands =
    (s.program.instr i).operands.map (Value.turn id answer)
  answers : T'.turned id = answer.getD (T.turned id)

/-! ## 5. Replacers -/

/-- A replacer does the work of a visit where it accepts, and fails only where an allocator
    refuses. -/
def Works (settings : RuleSettings) (p : Program) (T : Traces) (id : InstrId) (s : RuleState Addresses)
    (x : Replacing Addresses Bool) : Prop :=
  ComesTo x s (Fails s id) fun accepted s' =>
    accepted = true → ∃ T' heir answer along, Worked settings p T id s T' s' heir answer along

theorem works_decline : Works settings p T id s (pure false) :=
  comesTo_of_ok rfl Bool.noConfusion

theorem works_accept {x : Replacing Addresses Bool} {t : RuleState Addresses}
    (hx : x t = .ok true s') (h : Worked settings p T id s T' s' heir answer along) :
    ComesTo x t (Fails s id) fun accepted s' =>
      accepted = true → ∃ T' heir answer along, Worked settings p T id s T' s' heir answer along :=
  comesTo_of_ok hx fun _ => ⟨T', heir, answer, along, h⟩

theorem queued_alone (hu : Underway p T id s.program T' s'.program)
    (hentry : s'.scheduled = s.scheduled ++ [⟨id, heir⟩]) : Queued p T id s T' s' heir [] :=
  ⟨hu, hentry, .nil, List.forall_mem_nil _, List.forall_mem_nil _⟩

theorem make_run {α : Type} {f : Program → Program × α} {a : α}
    (h : f s.program = (q, a)) : edit (Edit.make f) s = .ok a { s with program := q } := by
  unfold edit Edit.make
  rw [h]

section

variable (h : Grown p T s.program) (hid : id ∈ (p.block b).instrs) (hturned : T.turned id = id)

include h

theorem worked_delete (extra : Addresses) (hwork : Work settings id s
      { s with scheduled := s.scheduled ++ [⟨id, none⟩], extra := extra } none none) :
    Worked settings p T id s T { s with scheduled := s.scheduled ++ [⟨id, none⟩], extra := extra }
      none none [] where
  toQueued := queued_alone (.start h id) rfl
  work := hwork
  modest := .refl _
  uses _ _ := (List.map_id _).symm
  answers := rfl

theorem works_deleteInstr (hwork : Work settings id s
      { s with scheduled := s.scheduled ++ [⟨id, none⟩] } none none) :
    Works settings p T id s (deleteInstr id c) :=
  works_accept rfl (worked_delete h s.extra hwork)

theorem works_releaseQubit {address : Int}
    (hcall : s.program.CallsWith id "__quantum__rt__qubit_release" [v] ∨
      s.program.CallsWith id "__quantum__rt__qubit_release_array" [v])
    (hasks : 0 ≤ address → Asks s id (some (.release address.toNat)))
    (haddress : c.int? "const" = some address) : Works settings p T id s (releaseQubit id c) := by
  unfold releaseQubit
  rw [haddress]
  dsimp only
  split
  · exact works_decline
  rename_i hpos
  have hasks := hasks (Int.not_lt.mp hpos)
  cases hgranted : Allocator.release address.toNat s.extra.qubits with
  | error cause q =>
    exact comesTo_of_error (bind_of_error (onQubits_of_error hgranted) _)
      (.inl ⟨_, cause, hasks, refuses_release hgranted, rfl⟩)
  | ok u q =>
    exact ComesTo.after (onQubits_of_ok hgranted) (works_accept rfl
      (worked_delete h { s.extra with qubits := q } (.released hcall (.inr ⟨_, hgranted, hasks⟩) rfl rfl)))

theorem works_releaseArray {address : Int}
    (hcall : s.program.CallsWith id "__quantum__rt__qubit_release_array" [v])
    (hv : s.program.PointsAt v address) (harray : c.instr? "array" = v.toInstr?)
    (haddress : c.int? "const" = some address) : Works settings p T id s (releaseArray id c) := by
  unfold releaseArray
  refine ComesTo.after (a := s) (t := s) rfl ?_
  dsimp only
  rw [harray]
  split
  · exact works_deleteInstr h (.released (.inr hcall) (.inl rfl) rfl rfl)
  · rename_i hfull
    exact works_releaseQubit h (.inr hcall)
      (fun hpos => .releaseArray hcall hv hpos (Bool.eq_false_iff.mpr hfull)) haddress

theorem underway_pointer (ty : Ty) (bits : Nat) (address : Int) :
    ∃ q, q = (s.program.createInstr (.cast .inttoptr) ty [.ofInt bits address]).1 ∧
      Underway p T id s.program T q ∧ s.program.Modest q ∧
      q.instr ⟨s.program.instrs.size⟩ = pointer ty bits address ∧
      (∀ i : InstrId, i.index < s.program.instrs.size → q.instr i = s.program.instr i) ∧
      q.instrs.size = s.program.instrs.size + 1 :=
  ⟨_, rfl, (Underway.start h id).create _ _ _ ⟨rfl, fun _ hkind => InstrKind.noConfusion hkind⟩,
    (Modest.refl _).create _ _, Program.instr_createInstr_new .., fun i hi =>
    Program.instr_createInstr_ne _ _ _ (Program.ne_fresh hi), by simp [Program.createInstr]⟩

theorem works_accessElement {array : Value} {bits : Nat} {base index : Int}
    (hreads : s.program.ReadsElement id array bits index) (hbase : s.program.PointsAt array base)
    (harray : c.int? "arrayName" = some base) (hindex : c.lookup "index" = some (.int bits index))
    (hparts : ∀ name ∈ ["getElement", "cast"], ∀ i, c.instr? name = some i →
      s.program.ElementPart i ∧ s.program.Removable i) :
    Works settings p T id s (accessElement settings.integerWidth id c) := by
  unfold accessElement
  refine ComesTo.after (a := s.program) (t := s) rfl ?_
  have hint : c.int? "index" = some index := by rw [Captures.int?, hindex]; rfl
  rw [harray, hint, hindex]
  dsimp only [Option.bind_some]
  rw [show (s.program.valueTy (.int bits index)).width?.getD settings.integerWidth = bits from rfl]
  obtain ⟨q, hq, hu, hmodest, hmade, hold, -⟩ := underway_pointer h (s.program.instr id).ty bits
    (base + index)
  refine ComesTo.after (a := ⟨s.program.instrs.size⟩) (t := { s with program := q })
    (by subst hq; rfl) (ComesTo.after (a := ()) (t := { s with
      program := q, scheduled := s.scheduled ++ [⟨id, some ⟨s.program.instrs.size⟩⟩] }) rfl ?_)
  have h₁ : Queued p T id s T { s with
      program := q, scheduled := s.scheduled ++ [⟨id, some ⟨s.program.instrs.size⟩⟩] }
      (some ⟨s.program.instrs.size⟩) [] := queued_alone hu rfl
  have hgoes : ∀ name ∈ ["getElement", "cast"], ∀ i, c.instr? name = some i →
      (s.program.instr i).erased = false ∧
        Serves s.program id (some ⟨s.program.instrs.size⟩) i := fun name hname i hi => by
    obtain ⟨hpart, hgone⟩ := hparts name hname i hi
    exact ⟨hgone.live, .inr ⟨hpart, hreads.load, rfl⟩, hgone.not_closes⟩
  obtain ⟨s₂, hs₂, hprogram, hextra, along₂, h₂⟩ := h₁.optionally (hgoes "getElement" (by simp))
  obtain ⟨s₃, hs₃, hprogram', hextra', along₃, h₃⟩ := h₂.optionally (hgoes "cast" (by simp))
  have hsame : s₃.program = q := hprogram'.trans hprogram
  refine ComesTo.after hs₂ (ComesTo.after hs₃ (works_accept rfl ⟨h₃, .read hreads hbase
    (hextra'.trans hextra) (Nat.le_refl _) (hsame ▸ hmade), hsame ▸ hmodest, fun i hi => ?_, rfl⟩))
  rw [hsame, hold i (Program.instr_lt_of_live hi)]
  exact (List.map_id _).symm

include hid hturned

theorem worked_substitute {start : Nat} (extra : Addresses)
    (hcall : s.program.AllocatesQubits id count) (hty : (s.program.instr id).ty.isPtr = true)
    (hgranted : Allocator.allocate (allocationName (s.program.instr id)) count s.extra.qubits =
      .ok start extra.qubits) (hresults : extra.results = s.extra.results) :
    Worked settings p T id s (T.turn id ⟨s.program.instrs.size⟩)
      { program := (s.program.createInstr (.cast .inttoptr) (s.program.instr id).ty
          [.ofInt settings.integerWidth start]).1.replaceUses (.instr id) (.instr ⟨s.program.instrs.size⟩)
        scheduled := s.scheduled ++ [⟨id, some ⟨s.program.instrs.size⟩⟩]
        extra := extra } (some ⟨s.program.instrs.size⟩) (some ⟨s.program.instrs.size⟩) [] := by
  obtain ⟨q, hq, hcreated, hmodest, hmade, hold, -⟩ := underway_pointer h (s.program.instr id).ty
    settings.integerWidth start
  rw [← hq]
  have hlt := Program.instr_lt_of_parent (h.base.mem_instrs.mp hid)
  refine ⟨queued_alone (hcreated.turn hlt hturned ⟨s.program.instrs.size⟩ h.instrs) rfl,
    .placed hcall hgranted hresults (Nat.le_refl _) ?_ hty, hmodest.replaceUses id (Nat.le_refl _),
    fun i hi => ?_, Function.update_self ..⟩
  · rw [instr_replaceUses, hmade]
    rw [hmade]
    rfl
  · have hsame := hold i (Program.instr_lt_of_live hi)
    rw [Program.instr_replaceUses_live (by rw [hsame]; exact hi), hsame]
    rfl

theorem works_allocateQubit (hcall : s.program.CallsWith id "__quantum__rt__qubit_allocate" []) :
    Works settings p T id s (allocateQubit settings.integerWidth id c) := by
  unfold allocateQubit
  refine ComesTo.after (a := s.program) (t := s) rfl ?_
  dsimp only
  split
  · exact works_decline
  rename_i hty
  have hty : (s.program.instr id).ty.isPtr = true := by simpa using hty
  cases hgranted : Allocator.allocate (allocationName (s.program.instr id)) 1 s.extra.qubits with
  | error cause q =>
    exact comesTo_of_error (bind_of_error (onQubits_of_error hgranted) _)
      (.inl ⟨_, cause, .qubit hcall hty, refuses_allocate hgranted, rfl⟩)
  | ok start q =>
    exact ComesTo.after (onQubits_of_ok hgranted) (works_accept rfl
      (worked_substitute h hid hturned { s.extra with qubits := q } (.one hcall) hty hgranted rfl))

theorem works_allocateArray
    (hcall : s.program.CallsWith id "__quantum__rt__qubit_allocate_array" [v])
    (hsize : c.lookup "size" = some v) :
    Works settings p T id s (allocateArray settings.integerWidth id c) := by
  unfold allocateArray
  refine ComesTo.after (a := s.program) (t := s) rfl ?_
  rw [Captures.int?, hsize, Option.bind_some]
  cases hint : v.toInt? with
  | none => exact works_decline
  | some size =>
    obtain ⟨bits, rfl⟩ := Value.toInt?_eq_some hint
    dsimp only
    split
    · exact works_decline
    rename_i hfits
    obtain ⟨hpos, hty⟩ := not_or.mp hfits
    have hty : (s.program.instr id).ty.isPtr = true := by simpa using hty
    have hcount : size = (size.toNat : Nat) := by omega
    cases hgranted : Allocator.allocate (allocationName (s.program.instr id)) size.toNat
        s.extra.qubits with
    | error cause q =>
      exact comesTo_of_error (bind_of_error (onQubits_of_error hgranted) _)
        (.inl ⟨_, cause, .array hcall hint (Int.not_lt.mp hpos) hty, refuses_allocate hgranted, rfl⟩)
    | ok start q =>
      refine ComesTo.after (onQubits_of_ok hgranted) ?_
      have hplaced (extra : Addresses) (hqubits : extra.qubits = q)
          (hresults : extra.results = s.extra.results) : Worked settings p T id s _ _ _ _ [] :=
        worked_substitute h hid hturned extra (.array hcount hcall) hty (hqubits ▸ hgranted) hresults
      obtain ⟨r, hr⟩ : ∃ r, r = (s.program.createInstr (.cast .inttoptr) (s.program.instr id).ty
        [.ofInt settings.integerWidth start]).1 := ⟨_, rfl⟩
      rw [← hr] at hplaced
      refine ComesTo.after (a := ⟨s.program.instrs.size⟩)
        (t := { s with program := r, extra.qubits := q }) (by subst hr; rfl) ?_
      split
      · exact works_accept rfl (hplaced _ rfl rfl)
      · exact works_accept rfl (hplaced _ rfl rfl)

omit hturned in
theorem works_measure {qubit : Value}
    (hcall : s.program.CallsWith id "__quantum__qis__m__body" [qubit])
    (hqubit : c.lookup "qubit" = some qubit) :
    Works settings p T id s (measure settings.integerWidth id c) := by
  unfold measure
  refine ComesTo.after (a := s.program) (t := s) rfl ?_
  rw [hqubit]
  dsimp only
  split
  · exact works_decline
  cases hgranted : Allocator.allocate (allocationName (s.program.instr id)) 1 s.extra.results with
  | error cause results =>
    refine comesTo_of_error (bind_of_error (e := .allocation cause)
      (u := { s with extra.results := results }) ?_ _) (.inr ⟨cause, rfl, refuses_allocate hgranted⟩)
    unfold onResults
    rw [hgranted]
  | ok start results =>
    have hresults : onResults (Allocator.allocate (allocationName (s.program.instr id)) 1) s =
        .ok start { s with extra.results := results } := by
      unfold onResults
      rw [hgranted]
    refine ComesTo.after hresults ?_
    obtain ⟨q₁, hq₁, hcreated, hmodest, hmade, hold, hsize⟩ := underway_pointer h
      (s.program.instr id).ty settings.integerWidth start
    refine ComesTo.after (a := ⟨s.program.instrs.size⟩)
      (t := { s with program := q₁, extra.results := results }) (by subst hq₁; rfl) ?_
    refine ComesTo.after (a := q₁) rfl ?_
    obtain ⟨q₂, f, hf⟩ : ∃ q₂ f, q₁.ensureFunction "__quantum__qis__mz__body"
      ⟨.void, [q₁.valueTy qubit, (s.program.instr id).ty], false⟩ = (q₂, f) := ⟨_, _, rfl⟩
    refine ComesTo.after (make_run hf) (ComesTo.after (a := q₂) rfl ?_)
    obtain ⟨r, hr, hu, hmodest', hinto, -, hold', -⟩ := hcreated.callBeside hmodest hid hf (by decide)
      [qubit, .instr ⟨s.program.instrs.size⟩] (.inr ⟨rfl, rfl⟩)
      (T.elsewhere_putAfter id ⟨q₁.instrs.size⟩) rfl (by simp [Traces.place, Traces.putAfter])
    have hne : ∀ i : InstrId, i.index ≤ s.program.instrs.size → i ≠ ⟨q₁.instrs.size⟩ :=
      fun i hi => Program.ne_fresh (by omega)
    refine ComesTo.after (edit_ok.mpr ⟨r, hr, rfl⟩) (works_accept rfl ⟨queued_alone hu rfl,
      .measured hcall hgranted rfl (Nat.le_refl _) ((hold' _ (hne _ (Nat.le_refl _))).trans hmade) hinto
        rfl, hmodest', fun i hi => ?_, rfl⟩)
    have hlt := Program.instr_lt_of_live hi
    change (r.instr i).operands = _
    rw [hold' i (hne i hlt.le), hold i hlt]
    exact (List.map_id _).symm

theorem works_answer {result : Value} {fetch : InstrId} (read answer : InstrId)
    (hu : Underway p T id s.program T' q) (hmodest : s.program.Modest q)
    (hold : ∀ i : InstrId, i.index < s.program.instrs.size → q.instr i = s.program.instr i)
    (hsame : T'.turned = T.turned) (hcompares : s.program.Compares id result fetch negated)
    (hone : c.instr? "one" = some fetch)
    (hnew : s.program.instrs.size ≤ read.index ∧ s.program.instrs.size ≤ answer.index)
    (hread : q.CallsWith read "__quantum__qis__read_result__body" [result])
    (hattached : (q.instr read).parent.isSome = true) (htells : q.Tells read negated answer) :
    ComesTo (do
      change fun p => (p.takeName id answer).replaceUses (.instr id) (.instr answer)
      scheduleDelete id
      (c.instr? "one").forM fun canonical => do
        if ← allUsersScheduled canonical then scheduleDeleteOnce canonical
      return true) { s with program := q } (Fails s id) fun accepted s' =>
      accepted = true → ∃ T' heir answer along, Worked settings p T id s T' s' heir answer along := by
  have hlt := Program.instr_lt_of_parent (h.base.mem_instrs.mp hid)
  have hu' := (hu.takeName hnew.2).turn hlt (hsame ▸ hturned) answer (Nat.le_trans h.instrs hnew.2)
  obtain ⟨r, hr⟩ : ∃ r, r = (q.takeName id answer).replaceUses (.instr id) (.instr answer) :=
    ⟨_, rfl⟩
  rw [← hr] at hu'
  obtain ⟨s₁, hs₁⟩ : ∃ s₁ : RuleState Addresses, s₁ = { s with
    program := r, scheduled := s.scheduled ++ [⟨id, none⟩] } := ⟨_, rfl⟩
  refine ComesTo.after (a := ⟨⟩) (t := { s with program := r }) (by subst hr; rfl)
    (ComesTo.after (a := ⟨⟩) (t := s₁) (by subst hs₁; rfl) ?_)
  have h₁ : Queued p T id s (T'.turn id answer) s₁ none [] := by
    subst hs₁
    exact queued_alone hu' rfl
  -- the fetch goes along, or somebody still needs it
  obtain ⟨s₂, hs₂, hprogram, hextra, hfetch, along, h₂⟩ : ∃ s₂, (do
        if ← allUsersScheduled fetch then scheduleDeleteOnce fetch : Replacing Addresses PUnit) s₁ =
          .ok ⟨⟩ s₂ ∧ s₂.program = s₁.program ∧ s₂.extra = s₁.extra ∧
      (fetch ∈ s₂.scheduled.map (·.old) ∨ ∃ user ∈ s₂.program.usersOf (.instr fetch),
        ∀ i, user = .instr i → i ∉ s₂.scheduled.map (·.old)) ∧
      ∃ along, Queued p T id s (T'.turn id answer) s₂ none along := by
    have hasked : allUsersScheduled fetch s₁ = .ok _ s₁ := rfl
    rw [bind_of_ok hasked]
    split
    · obtain ⟨t, ht, hprogram, hextra, hmem, hqueued⟩ := h₁.once (i := fetch) ⟨hcompares.canonical.live,
        .inl (Program.fetch_of_canonical hcompares.canonical.calls),
        (hcompares.canonical.removable (.inl (Nat.zero_le 1))).not_closes⟩
      exact ⟨t, ht, hprogram, hextra, .inl hmem, hqueued⟩
    · rename_i hneeded
      refine ⟨s₁, rfl, rfl, rfl, .inr ?_, [], h₁⟩
      obtain ⟨user, huser, hnot⟩ := List.all_eq_false.mp (Bool.eq_false_iff.mpr hneeded)
      refine ⟨user, huser, fun i hi hmem => hnot ?_⟩
      subst hi
      obtain ⟨entry, hentry, rfl⟩ := List.mem_map.mp hmem
      exact List.any_eq_true.mpr ⟨entry, hentry, beq_self_eq_true _⟩
  subst hs₁ hr
  have hlive := fun {i} (hi : (s.program.instr i).erased = false) =>
    (hold i (Program.instr_lt_of_live hi)).symm ▸ hi
  rw [hone]
  refine ComesTo.after hs₂ (works_accept rfl ⟨h₂, .compared hcompares hnew ?_ ?_ ?_ hfetch hextra, ?_,
    fun i hi => ?_, Function.update_self ..⟩) <;> rw [hprogram]
  · exact hread.answered
  · obtain ⟨n, hn⟩ := Program.instr_answered id answer hread.live
    rw [hn]
    exact hattached
  · refine htells.answered ?_
    rintro rfl
    exact Nat.not_lt.mpr hnew.1 (Nat.lt_of_lt_of_le hlt h.instrs)
  · exact (hmodest.takeName id answer).replaceUses id hnew.2
  · obtain ⟨n, hn⟩ := Program.instr_answered (p := q) id answer (hlive hi)
    rw [hn, hold i (Program.instr_lt_of_live hi)]

theorem works_readResult {result : Value} {fetch : InstrId}
    (hcompares : s.program.Compares id result fetch negated)
    (hresult : c.lookup "result" = some result) (hone : c.instr? "one" = some fetch) :
    Works settings p T id s (readResult negated id c) := by
  unfold readResult
  rw [hresult]
  refine ComesTo.after (a := s.program) (t := s) rfl ?_
  obtain ⟨q, f, hf⟩ : ∃ q f, s.program.ensureFunction "__quantum__qis__read_result__body"
    ⟨.int 1, [s.program.valueTy result], false⟩ = (q, f) := ⟨_, _, rfl⟩
  refine ComesTo.after (make_run hf) (ComesTo.after (a := q) rfl ?_)
  obtain ⟨r, hr, hu, hmodest, hread, hparent, hold, hsize⟩ := (Underway.start h id).callBeside (.refl _)
    hid hf (by decide) [result] (.inl ⟨rfl, rfl⟩)
    (T.elsewhere_putBefore id ⟨s.program.instrs.size⟩) rfl (by simp [Traces.place, Traces.putBefore])
  refine ComesTo.after (edit_ok.mpr ⟨r, hr, rfl⟩) ?_
  have hkept : ∀ i : InstrId, i.index < s.program.instrs.size → r.instr i = s.program.instr i :=
    fun i hi => hold i (Program.ne_fresh hi)
  have hattached : (r.instr ⟨s.program.instrs.size⟩).parent.isSome = true := by
    rw [hparent]
    rfl
  cases negated with
  | false =>
    exact works_answer h hid hturned _ _ hu hmodest hkept rfl hcompares hone
      ⟨Nat.le_refl _, Nat.le_refl _⟩ hread hattached .same
  | true =>
    refine ComesTo.after (a := r) rfl ?_
    obtain ⟨r', hr', hu', hmade, hold', -, hfunctions⟩ := hu.insert hid
      (r.draftNot (.instr ⟨s.program.instrs.size⟩) none) (fun k hk => by cases hk)
      (.inl ⟨rfl, rfl⟩) (Traces.elsewhere_putBefore _ id ⟨r.instrs.size⟩) rfl
      (by simp [Traces.place, Traces.putBefore])
    refine ComesTo.after (edit_ok.mpr ⟨r', hr', rfl⟩) ?_
    have hne : ∀ i : InstrId, i.index ≤ s.program.instrs.size → i ≠ ⟨r.instrs.size⟩ :=
      fun i hi => Program.ne_fresh (by omega)
    have hreadne := hne ⟨s.program.instrs.size⟩ (Nat.le_refl _)
    refine works_answer h hid hturned ⟨s.program.instrs.size⟩ ⟨r.instrs.size⟩ hu'
      (hmodest.add _ hfunctions (Program.globals_insert hr') ?_ hold') (fun i hi => ?_) rfl hcompares hone
      ⟨Nat.le_refl _, by rw [hsize]; exact Nat.le_succ _⟩ (hread.same (hold' _ hreadne) hfunctions) ?_ ?_
    · rw [hmade]
      rfl
    · rw [hold' i (hne i hi.le), hkept i hi]
    · rw [hold' _ hreadne]
      exact hattached
    · exact .opposite (by rw [hmade]; rfl) (by rw [hmade]; rfl) (by rw [hmade]) (by rw [hmade]; rfl)

theorem works_found {f : Replacer Addresses} (hfound : Found settings s.program id c f) :
    Works settings p T id s (f id c) := by
  cases hfound with
  | removed hname hcalls => exact works_deleteInstr h (.removed hname hcalls rfl)
  | compared hcompares hresult hone => exact works_readResult h hid hturned hcompares hresult hone
  | array hcall hsize => exact works_allocateArray h hid hturned hcall hsize
  | element hreads hbase harray hindex hparts =>
    exact works_accessElement h hreads hbase harray hindex hparts
  | releasedArray hcall hv harray haddress => exact works_releaseArray h hcall hv harray haddress
  | qubit hcall => exact works_allocateQubit h hid hturned hcall
  | released hcall hv haddress => exact works_releaseQubit h (.inl hcall) (.release hcall hv) haddress
  | dropped hcall => exact works_deleteInstr h (.released (.inl hcall) (.inl rfl) rfl rfl)
  | measured hcall hqubit => exact works_measure h hid hcall hqubit

/-- A rule set declines and leaves the state, or does one of the six things. -/
theorem works_applyFirst (settings : RuleSettings) :
    ComesTo (applyFirst settings.rules id) s (Fails s id) fun accepted s' =>
      (accepted = false ∧ s' = s) ∨ (accepted = true ∧
        ∃ T' heir answer along, Worked settings p T id s T' s' heir answer along) := by
  unfold applyFirst
  refine ComesTo.after (a := s.program) (t := s) rfl ?_
  split
  · exact comesTo_of_ok rfl (.inl ⟨rfl, rfl⟩)
  rcases firstAccepting_decided (installed_rules settings).free s id with
    ⟨-, hrun⟩ | ⟨⟨hrules, -, hmatch, hreplacer, hresult⟩, hsettled⟩
  · exact comesTo_of_ok hrun (.inl ⟨rfl, rfl⟩)
  · rename_i before after r f c
    have hworks := works_found h hid hturned
      (finds_rules r (by rw [hrules]; simp) c f hmatch hreplacer)
    rw [← hresult] at hsettled
    refine ComesTo.of_eq ?_ hresult.symm
    unfold ComesTo
    cases hx : f id c s with
    | error e s' => exact hworks.of_error hx
    | ok accepted s' =>
      cases accepted with
      | true => exact .inr ⟨rfl, hworks.of_ok hx rfl⟩
      | false => exact absurd hx (hsettled s')

end

/-! ## 6. Visits -/

/-- **All that a visit has done where a rule has accepted.** -/
structure Treated (settings : RuleSettings) (id : InstrId) (s s' : RuleState Addresses)
    (heir answer : Option InstrId) (along : List InstrId) : Prop where
  work : Work settings id s s' heir answer
  grown : s.program.Extends s'.program
  elsewhere : ∀ b, id ∉ (s.program.block b).instrs →
    (s'.program.block b).instrs = (s.program.block b).instrs
  operands : ∀ i, (s.program.instr i).erased = false → (s'.program.instr i).operands =
    (s.program.instr i).operands.map (Value.turn id answer)
  entries : s'.scheduled = s.scheduled ++ ⟨id, heir⟩ :: along.map fun i => ⟨i, none⟩
  served : ∀ i ∈ along, (s.program.instr i).erased = false ∧ Serves s.program id heir i

theorem accepted_applyFirst (hs : s.program.Sound) (hid : id ∈ (s.program.block b).instrs)
    (h : applyFirst settings.rules id s = .ok true s') :
    ∃ heir answer along, Treated settings id s s' heir answer along := by
  obtain ⟨hfalse, -⟩ | ⟨-, T', heir, answer, along, hw⟩ :=
    (works_applyFirst (.start hs) hid rfl settings).of_ok h
  · cases hfalse
  refine ⟨heir, answer, along, hw.work, hw.extends hw.modest, fun b hb => ?_, hw.uses, hw.entries,
    hw.served⟩
  -- nothing has been put beside any other instruction
  rw [hw.listed b]
  refine (List.flatMap_congr fun i hi => ?_).trans (List.flatMap_singleton' _)
  obtain ⟨-, hfront, hback⟩ := hw.elsewhere i fun he => hb (he ▸ hi)
  rw [Traces.place, hfront, hback]
  rfl

theorem applyFirst_declined (h : applyFirst settings.rules id s = .ok false s') : s' = s := by
  cases hlive : (s.program.instr id).erased with
  | false => exact (((applyFirst_decided (installed_rules settings) s hlive).2.2.1 s').mp h).1
  | true =>
    unfold applyFirst at h
    obtain ⟨_, _, hprogram, h⟩ := bind_ok h
    obtain ⟨rfl, rfl⟩ := program_ok hprogram
    rw [hlive, if_pos rfl] at h
    exact (pure_ok h).2.symm

theorem applyFirst_settled {accepted : Bool} {r : Rule Addresses} {f : Replacer Addresses}
    (hr : r ∈ settings.rules) (hlive : (s.program.instr id).erased = false)
    (hmatch : match? r s.program id = some c) (hreplacer : r.replacer = some f)
    (hf : f id c s ≠ .ok false s) (h : applyFirst settings.rules id s = .ok accepted s') :
    accepted = true := by
  cases accepted with
  | true => rfl
  | false =>
    obtain ⟨-, hall⟩ := ((applyFirst_decided (installed_rules settings) s hlive).2.2.1 s').mp h
    exact absurd (hall r hr c hmatch f hreplacer) hf

end Replacing

end QirProfile
