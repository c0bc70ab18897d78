import QirProfile.Proofs.Rule.Outcomes

/-!
# What a visit asks of the qubit allocator

Four kinds of calls ask something of the qubit allocator (`Asks`). The rules of the catalogue find
them by the name of the function and by the shape of the operands, and a visit of such a call does
what the call asks. Whatever else is visited, the allocator of qubits does not notice.
-/

namespace QirProfile

namespace Replacing

open Program (Traces Underway Calls CallsWith PointsAt pointer)
open Allocator (Roomy Request)
open Pattern

/-- What a visit does about a request: the allocator grants it, and the instruction has its fate. -/
inductive Answered (id : InstrId) (fates fates' : InstrId → Option Fate)
    (s s' : RuleState Addresses) : Prop where
  | quiet (hasks : ∀ r, ¬ Asks s id r) (hqubits : s'.extra.qubits = s.extra.qubits)
      (hfates : fates' = fates)
  | placed {name : String} {count start : Nat} (hasks : Asks s id (some (.allocate name count)))
      (hgranted : Allocator.allocate name count s.extra.qubits = .ok start s'.extra.qubits)
      (hfates : fates' = Function.update fates id (some (.placed start count)))
  | released {address : Nat} (hasks : Asks s id (some (.release address)))
      (hgranted : Allocator.release address s.extra.qubits = .ok () s'.extra.qubits)
      (hfates : fates' = Function.update fates id (some .dropped))
  | skipped (hasks : Asks s id none) (hqubits : s'.extra.qubits = s.extra.qubits)
      (hfates : fates' = Function.update fates id (some .dropped))

variable {p : Program} {done : List InstrId} {fates : InstrId → Option Fate} {T : Traces}
  {s s' : RuleState Addresses} {id : InstrId} {c : Captures} {b : BlockId}

/-! ## 1. Requests that are granted -/

section

variable (h : Following p done fates T s) (hid : id ∈ (p.block b).instrs) (hnew : id ∉ done)

include h hid hnew

theorem Following.leave {fates' : InstrId → Option Fate} (entry : Option Unit) (qubits : Allocator)
    (hself : entry.isSome = true → ¬ s.program.Bystander id)
    (hfates : ∀ i, i ≠ id → fates' i = fates i)
    (hfate : ∀ fate, fates' id = some fate → entry = some () ∧ fate = .dropped) :
    Following p (id :: done) fates' T { s with
      scheduled := s.scheduled ++ (entry.map fun _ => ⟨id, none⟩).toList
      extra.qubits := qubits } := by
  obtain ⟨hturned, hfront, hback⟩ := h.untouched id hnew
  refine h.step (entry.map fun _ => none) ?_ hnew (.start h.toGrown id) ?_ ?_ ?_ (.inl hturned)
    hfates (fun fate hf => ?_) (List.Subset.refl _) (fun a ha => .inl ha)
    (h.room.mono (Nat.le_succ _))
  · rw [h.base.mem_instrs.mp hid]
    rfl
  · rw [Option.map_map]
    rfl
  · rw [Option.isSome_map]
    exact hself
  · intro a ha
    cases entry <;> cases ha
  · obtain ⟨rfl, rfl⟩ := hfate fate hf
    exact ⟨List.mem_append_right _ List.mem_cons_self, hfront, hback⟩

theorem Following.place (start count : Nat) (qubits : Allocator) (hself : ¬ s.program.Bystander id) :
    Following p (id :: done) (Function.update fates id (some (.placed start count)))
      (T.turn id ⟨s.program.instrs.size⟩)
      { program := (s.program.createInstr (.cast .inttoptr) (s.program.instr id).ty
          [.ofInt 64 start]).1.replaceUses (.instr id) (.instr ⟨s.program.instrs.size⟩)
        scheduled := s.scheduled ++ [⟨id, some ⟨s.program.instrs.size⟩⟩]
        extra := { s.extra with
          qubits := qubits
          emptyArrays := if count = 0 then ⟨s.program.instrs.size⟩ :: s.extra.emptyArrays
            else s.extra.emptyArrays } } := by
  have hparent := h.base.mem_instrs.mp hid
  have hlt := Program.instr_lt_of_parent hparent
  obtain ⟨hturned, hfront, hback⟩ := h.untouched id hnew
  have hcreated := (Underway.start h.toGrown id).create (.cast .inttoptr) (s.program.instr id).ty
    [.ofInt 64 start] ⟨rfl, nofun⟩
  have hu := hcreated.turn hlt hturned ⟨s.program.instrs.size⟩ h.instrs
  have hpointer : ((s.program.createInstr (.cast .inttoptr) (s.program.instr id).ty
      [.ofInt 64 start]).1.replaceUses (.instr id) (.instr ⟨s.program.instrs.size⟩)).instr
      ⟨s.program.instrs.size⟩ = pointer (p.instr id).ty 64 start := by
    rw [instr_replaceUses, Program.instr_createInstr_new, (h.instr id hlt).2.1]
    · rfl
    · rw [Program.instr_createInstr_new]
      rfl
  have hself' : (T.turn id ⟨s.program.instrs.size⟩).turned id = ⟨s.program.instrs.size⟩ :=
    Function.update_self ..
  refine h.step (some (some ⟨s.program.instrs.size⟩)) ?_ hnew hu rfl (fun _ => hself)
    (fun a ha => ?_) (.inr (.inl ⟨start, count, Function.update_self ..⟩))
    (fun i hi => Function.update_of_ne hi _ _) (fun fate hfate => ?_) ?_ (fun a ha => ?_)
    (h.room.mono (Nat.le_succ _))
  · rw [hparent]
    rfl
  · cases ha
    exact ⟨Nat.le_refl _, _, _, _, hpointer⟩
  · rw [Function.update_self, Option.some_inj] at hfate
    subst hfate
    unfold Assured
    rw [hself']
    refine ⟨List.mem_append_right _ List.mem_cons_self, hpointer, ?_, hfront, hback⟩
    have hfresh : (⟨s.program.instrs.size⟩ : InstrId) ∉ s.extra.emptyArrays :=
      fun ha => Nat.lt_irrefl _ (h.empties _ ha)
    by_cases hcount : count = 0
    · simp [hcount]
    · simp [hcount, hfresh]
  · dsimp only
    split
    · exact List.subset_cons_self _ _
    · exact List.Subset.refl _
  · dsimp only at ha
    split at ha
    · rcases List.mem_cons.mp ha with rfl | ha
      · refine .inr ⟨Nat.le_refl _, ?_⟩
        simp [Program.replaceUses, Program.createInstr]
      · exact .inl ha
    · exact .inl ha

end

/-! ## 2. Visits that the qubit allocator does not notice -/

theorem Following.alongs (h : Following p done fates T s) {along : List InstrId} (hdistinct : along.Nodup)
    (hgoes : ∀ i ∈ along, ((s.program.instr i).erased = false ∧ s.program.Bystander i) ∧
      i ∉ s.scheduled.map (·.old)) :
    Following p done fates T { s with scheduled := s.scheduled ++ along.map fun i => ⟨i, none⟩ } := by
  induction along generalizing s with
  | nil => simpa using h
  | cons i along ih =>
    obtain ⟨hi, hdistinct⟩ := List.nodup_cons.mp hdistinct
    obtain ⟨⟨⟨hlive, hby⟩, hnot⟩, hgoes⟩ := List.forall_mem_cons.mp hgoes
    have hnext := ih (h.along hlive hby hnot) hdistinct fun j hj => ⟨(hgoes j hj).1, ?_⟩
    · rw [List.append_assoc] at hnext
      exact hnext
    · rw [List.map_append, List.mem_append]
      refine not_or.mpr ⟨(hgoes j hj).2, fun hself => hi ?_⟩
      obtain rfl := List.mem_singleton.mp hself
      exact hj

section

variable (h : Following p done fates T s) (hid : id ∈ (p.block b).instrs) (hnew : id ∉ done)

include h hid hnew

theorem Following.pass : Following p (id :: done) fates T s := by
  have hleft := h.leave hid hnew none s.extra.qubits nofun (fun _ _ => rfl)
    fun fate hfate => absurd (h.fated id fate hfate).1 hnew
  simp only [Option.map_none, Option.toList_none, List.append_nil] at hleft
  exact hleft

theorem Following.quiet {settings : RuleSettings} {T' : Traces} {heir answer : Option InstrId}
    {along : List InstrId} (hnone : ∀ r, ¬ Asks s id r) (hword : done.length + 1 < span 64)
    (hw : Worked settings p T id s T' s' heir answer along) :
    Following p (id :: done) fates T' s' ∧ s'.extra.qubits = s.extra.qubits := by
  obtain ⟨hqubits, hempties, hroom, hturned⟩ : s'.extra.qubits = s.extra.qubits ∧
      s'.extra.emptyArrays = s.extra.emptyArrays ∧ Roomy s'.extra.results (done.length + 1) ∧
      (T'.turned id = id ∨ s.program.Calls id "__quantum__rt__result_equal") := by
    have hroom := h.room.mono (Nat.le_succ _)
    have hanswers := hw.answers.trans (congrArg answer.getD (h.untouched id hnew).1)
    cases hw.work with
    | removed _ _ hextra | read _ _ hextra =>
      rw [hextra]
      exact ⟨rfl, rfl, hroom, .inl hanswers⟩
    | compared hcompares _ _ _ _ _ hextra =>
      rw [hextra]
      exact ⟨rfl, rfl, hroom, .inr hcompares.calls⟩
    | released _ hqubits hresults hempties =>
      refine ⟨hqubits.resolve_right ?_, hempties, hresults ▸ hroom, .inl hanswers⟩
      rintro ⟨address, -, hasks⟩
      exact hnone _ hasks
    | placed hcall _ _ _ _ hty => exact absurd (asks_of_allocates hcall hty) (hnone _)
    | measured _ hgranted hqubits _ _ _ hempties =>
      obtain ⟨start, results, hgranted', hroom⟩ :=
        h.room.allocate (allocationName (s.program.instr id)) 1 hword
      cases hgranted.symm.trans hgranted'
      exact ⟨hqubits, hempties, hroom, .inl hanswers⟩
  have hself : Following p (id :: done) fates T'
      { s' with scheduled := s.scheduled ++ [⟨id, heir⟩] } := by
    refine h.step (some heir) ?_ hnew hw.toUnderway rfl (fun _ => hw.work.target.not_bystander)
      (fun a ha => hw.work.pointer (Option.some.inj ha)) (hturned.imp_right .inr) (fun _ _ => rfl)
      (fun fate hfate => absurd (h.fated id fate hfate).1 hnew) (hempties ▸ List.Subset.refl _)
      (fun a ha => .inl (hempties ▸ ha)) hroom
    rw [h.base.mem_instrs.mp hid]
    rfl
  have halong := hself.alongs hw.distinct fun i hi => by
    obtain ⟨hlive, hserves⟩ := hw.served i hi
    have hlt := Program.instr_lt_of_live hlive
    have hby : s.program.Bystander i := hserves.part.elim (·.bystander) (·.1.bystander)
    obtain ⟨hne, hnot⟩ := hw.apart i hi
    refine ⟨⟨(hw.kept i hlt).2.1.trans hlive, hw.bystander hlt hby⟩, ?_⟩
    simpa [not_or, hne] using hnot
  rw [List.append_assoc, List.singleton_append, ← hw.entries] at halong
  exact ⟨halong, hqubits⟩

end

/-! ## 3. Doing what is asked -/

/-- A visit has done what was asked. -/
def Served (p : Program) (done : List InstrId) (fates : InstrId → Option Fate) (id : InstrId)
    (s s' : RuleState Addresses) : Prop :=
  ∃ fates' T', Following p (id :: done) fates' T' s' ∧ Answered id fates fates' s s'

section

variable (h : Following p done fates T s) (hid : id ∈ (p.block b).instrs) (hnew : id ∉ done)

include h hid hnew

theorem Following.serves_qubit (hcalls : s.program.CallsWith id "__quantum__rt__qubit_allocate" [])
    (hty : (s.program.instr id).ty.isPtr = true) :
    ComesTo (allocateQubit 64 id c) s (Refused s id) fun accepted s' =>
      accepted = true ∧ Served p done fates id s s' := by
  unfold allocateQubit
  refine ComesTo.after (a := s.program) (t := s) rfl ?_
  dsimp only
  rw [if_neg (by simp [hty])]
  cases hgranted : Allocator.allocate (allocationName (s.program.instr id)) 1 s.extra.qubits with
  | error cause q =>
    exact comesTo_of_error (bind_of_error (onQubits_of_error hgranted) _)
      ⟨_, cause, .qubit hcalls hty, refuses_allocate hgranted, rfl⟩
  | ok start q =>
    have hplaced := h.place hid hnew start 1 q
      (hcalls.calls.not_bystander (by decide))
    rw [if_neg Nat.one_ne_zero] at hplaced
    exact ComesTo.after (onQubits_of_ok hgranted) (comesTo_of_ok rfl
      ⟨rfl, _, _, hplaced, .placed (.qubit hcalls hty) hgranted rfl⟩)

theorem Following.serves_array {v : Value} {size : Int}
    (hcalls : s.program.CallsWith id "__quantum__rt__qubit_allocate_array" [v])
    (hsize : v.toInt? = some size) (hpos : 0 ≤ size)
    (hty : (s.program.instr id).ty.isPtr = true) (hc : c.int? "size" = some size) :
    ComesTo (allocateArray 64 id c) s (Refused s id) fun accepted s' =>
      accepted = true ∧ Served p done fates id s s' := by
  unfold allocateArray
  refine ComesTo.after (a := s.program) (t := s) rfl ?_
  rw [hc]
  dsimp only
  rw [if_neg (by simp [hty, hpos])]
  have hasks : Asks s id _ := .array hcalls hsize hpos hty
  cases hgranted : Allocator.allocate (allocationName (s.program.instr id)) size.toNat
      s.extra.qubits with
  | error cause q =>
    exact comesTo_of_error (bind_of_error (onQubits_of_error hgranted) _)
      ⟨_, cause, hasks, refuses_allocate hgranted, rfl⟩
  | ok start q =>
    have hplaced := h.place hid hnew start size.toNat q
      (hcalls.calls.not_bystander (by decide))
    refine ComesTo.after (onQubits_of_ok hgranted) ?_
    obtain ⟨r, hr⟩ : ∃ r, r = (s.program.createInstr (.cast .inttoptr) (s.program.instr id).ty
      [.ofInt 64 start]).1 := ⟨_, rfl⟩
    rw [← hr] at hplaced
    refine ComesTo.after (a := ⟨s.program.instrs.size⟩)
      (t := { s with program := r, extra.qubits := q }) (by subst hr; rfl) ?_
    by_cases hzero : size = 0
    · rw [if_pos hzero]
      rw [if_pos (by rw [hzero]; rfl)] at hplaced
      exact comesTo_of_ok rfl ⟨rfl, _, _, hplaced, .placed hasks hgranted rfl⟩
    · rw [if_neg hzero]
      rw [if_neg (by omega)] at hplaced
      exact comesTo_of_ok rfl ⟨rfl, _, _, hplaced, .placed hasks hgranted rfl⟩

theorem Following.drop (qubits : Allocator) (hself : ¬ s.program.Bystander id) :
    Following p (id :: done) (Function.update fates id (some .dropped)) T
      { s with scheduled := s.scheduled ++ [⟨id, none⟩], extra.qubits := qubits } := by
  refine h.leave hid hnew (some ()) qubits (fun _ => hself) (fun i hi => Function.update_of_ne hi _ _)
    fun fate hfate => ?_
  rw [Function.update_self, Option.some_inj] at hfate
  exact ⟨rfl, hfate.symm⟩

theorem Following.serves_release {address : Int} (hasks : Asks s id (some (.release address.toNat)))
    (hself : ¬ s.program.Bystander id) (hpos : 0 ≤ address) (haddress : c.int? "const" = some address) :
    ComesTo (releaseQubit id c) s (Refused s id) fun accepted s' =>
      accepted = true ∧ Served p done fates id s s' := by
  unfold releaseQubit
  rw [haddress]
  dsimp only
  rw [if_neg (Int.not_lt.mpr hpos)]
  cases hgranted : Allocator.release address.toNat s.extra.qubits with
  | error cause q =>
    exact comesTo_of_error (bind_of_error (onQubits_of_error hgranted) _)
      ⟨_, cause, hasks, refuses_release hgranted, rfl⟩
  | ok u q =>
    exact ComesTo.after (onQubits_of_ok hgranted) (comesTo_of_ok rfl
      ⟨rfl, _, _, h.drop hid hnew q hself, .released hasks hgranted rfl⟩)

theorem Following.serves_releaseArray {v : Value} {address : Int} {r : Option Request}
    (hcall : s.program.CallsWith id "__quantum__rt__qubit_release_array" [v])
    (hasks : Asks s id r) (hr : r = none ∧ v.toInstr?.any s.extra.emptyArrays.contains = true ∨
      r = some (.release address.toNat) ∧ 0 ≤ address ∧
        v.toInstr?.any s.extra.emptyArrays.contains = false)
    (harray : c.instr? "array" = v.toInstr?) (haddress : c.int? "const" = some address) :
    ComesTo (releaseArray id c) s (Refused s id) fun accepted s' =>
      accepted = true ∧ Served p done fates id s s' := by
  have hself := hcall.calls.not_bystander (by decide)
  unfold releaseArray
  refine ComesTo.after (a := s) (t := s) rfl ?_
  dsimp only
  rw [harray]
  rcases hr with ⟨rfl, hempty⟩ | ⟨rfl, hpos, hfull⟩
  · rw [if_pos hempty]
    exact comesTo_of_ok rfl
      ⟨rfl, _, _, h.drop hid hnew s.extra.qubits hself, .skipped hasks rfl rfl⟩
  · rw [if_neg (Bool.eq_false_iff.mp hfull)]
    exact h.serves_release hid hnew hasks hself hpos haddress

end

/-! ## 4. Finding the rule for what is asked -/

/-- A pattern of this shape finds no call of a function. -/
def avoids (function : String) : Shape → Bool
  | .call other => other != function
  | .load => true
  | _ => false

theorem test_of_avoids {function : String} (hcalls : s.program.Calls id function) {shape : Shape}
    (h : avoids function shape = true) : shape.test s.program (.instr id) = false := by
  refine Bool.eq_false_iff.mpr fun htest => ?_
  cases shape with
  | call other =>
    obtain ⟨-, hother⟩ := test_call.mp htest
    have hne : other ≠ function := bne_iff_ne.mp h
    exact hne (Calls.unique hother hcalls)
  | load =>
    obtain ⟨align, hload⟩ := test_load htest
    exact hcalls.not_load hload
  | _ => cases h

theorem firstAccepting_skip {function : String} (hcalls : s.program.Calls id function)
    (rules rest : List (Rule Addresses))
    (hskip : rules.all (fun r => r.pattern.all fun q => avoids function q.shape) = true) :
    firstAccepting id (rules ++ rest) s = firstAccepting id rest s := by
  induction rules with
  | nil => rfl
  | cons r rules ih =>
    rw [List.all_cons, Bool.and_eq_true] at hskip
    obtain ⟨hr, hrules⟩ := hskip
    refine (firstAccepting_of_none ?_).trans (ih hrules)
    unfold match?
    cases hq : r.pattern with
    | none => rfl
    | some q =>
      rw [hq, Option.all_some] at hr
      cases hmatch : q.match? s.program (.instr id) [] with
      | none => exact hmatch
      | some c =>
        have htest := test_of_match? hmatch
        rw [test_of_avoids hcalls hr] at htest
        cases htest

theorem firstAccepting_served {r : Rule Addresses} {rest : List (Rule Addresses)}
    {f : Replacer Addresses} {E : CompileError → Prop} {Q : RuleState Addresses → Prop}
    (hf : r.replacer = some f) (hmatch : match? r s.program id = some c)
    (h : ComesTo (f id c) s E fun accepted s' => accepted = true ∧ Q s') :
    ComesTo (firstAccepting id (r :: rest)) s E fun _ s' => Q s' := by
  cases hx : f id c s with
  | error e s' => exact comesTo_of_error (firstAccepting_of_error hmatch hf hx) (h.of_error hx)
  | ok accepted s' =>
    obtain ⟨rfl, hs'⟩ := h.of_ok hx
    exact comesTo_of_ok (firstAccepting_of_true hmatch hf hx) hs'

section

variable (h : Following p done fates T s) (hid : id ∈ (p.block b).instrs) (hnew : id ∉ done)

include h hid hnew

/-- A visit asks the allocator for what the call asks, and for nothing else. -/
theorem Following.serves {r : Option Request} (hasks : Asks s id r) :
    ComesTo (firstAccepting id ({} : RuleSettings).rules) s (Refused s id) fun _ s' =>
      Served p done fates id s s' := by
  let before : List (Rule Addresses) :=
    [RuleGroup.referenceCounting, .aliasCounting, .stringSupport, .resultOne, .resultZero].flatMap
      (·.rules 64)
  -- releases of arrays are found by one rule, whether the array is empty or not
  have harrays : ∀ {v address}, s.program.CallsWith id "__quantum__rt__qubit_release_array" [v] →
      s.program.PointsAt v address → (r = none ∧ v.toInstr?.any s.extra.emptyArrays.contains = true ∨
        r = some (.release address.toNat) ∧ 0 ≤ address ∧
          v.toInstr?.any s.extra.emptyArrays.contains = false) →
      ComesTo (firstAccepting id ({} : RuleSettings).rules) s (Refused s id) fun _ s' =>
        Served p done fates id s s' := by
    intro v address hcall hv hr
    obtain ⟨hcast, w, hoperands, hw⟩ := hv
    refine ComesTo.of_eq ?_ (firstAccepting_skip hcall.calls (before ++ (qubitArrayRules 64).take 2)
      ((qubitArrayRules 64).drop 2 ++ qubitRules 64 ++ resultRules 64) (by decide +kernel))
    refine firstAccepting_served rfl (match?_call_one.mpr ⟨_, hcall, match?_pointer.mpr
      ⟨w, _, hcast, hoperands, hw, rfl⟩⟩) (h.serves_releaseArray hid hnew hcall hasks hr ?_ ?_)
    · simp [Captures.instr?, Captures.lookup_insert]
    · simp [Captures.int?, Captures.lookup_insert, hw]
  cases hasks with
  | qubit hcalls hty =>
    refine ComesTo.of_eq ?_ (firstAccepting_skip hcalls.calls (before ++ qubitArrayRules 64)
      (qubitRules 64 ++ resultRules 64) (by decide +kernel))
    exact firstAccepting_served rfl (match?_call_nil.mpr ⟨hcalls, rfl⟩)
      (h.serves_qubit hid hnew hcalls hty)
  | array hcalls hsize hpos hty =>
    refine ComesTo.of_eq ?_ (firstAccepting_skip hcalls.calls before
      (qubitArrayRules 64 ++ qubitRules 64 ++ resultRules 64)
      (by decide +kernel))
    exact firstAccepting_served rfl (match?_call_one.mpr ⟨_, hcalls, match?_any_as.mpr rfl⟩)
      (h.serves_array hid hnew hcalls hsize hpos hty (by simp [Captures.int?, Captures.insert, hsize]))
  | release hcalls hv hpos =>
    obtain ⟨hcast, w, hoperands, hw⟩ := hv
    refine ComesTo.of_eq ?_ (firstAccepting_skip hcalls.calls
      (before ++ qubitArrayRules 64 ++ (qubitRules 64).take 1)
      ((qubitRules 64).drop 1 ++ resultRules 64) (by decide +kernel))
    refine firstAccepting_served rfl (match?_call_one.mpr ⟨_, hcalls, match?_pointer.mpr
      ⟨w, _, hcast, hoperands, hw, rfl⟩⟩) ?_
    exact h.serves_release hid hnew (.release hcalls ⟨hcast, w, hoperands, hw⟩ hpos)
      (hcalls.calls.not_bystander (by decide)) hpos (by simp [Captures.int?, Captures.lookup_insert, hw])
  | releaseArray hcalls hv hpos hfull => exact harrays hcalls hv (.inr ⟨rfl, hpos, hfull⟩)
  | releaseEmpty hcalls hv hempty => exact harrays hcalls hv (.inl ⟨rfl, hempty⟩)

theorem Following.applyFirst (hword : done.length + 1 < span 64) :
    ComesTo (applyFirst ({} : RuleSettings).rules id) s (Refused s id) fun _ s' =>
      Served p done fates id s s' := by
  by_cases hasks : ∃ r, Asks s id r
  · obtain ⟨r, hr⟩ := hasks
    have hlive : (s.program.instr id).erased = false := by
      rw [(h.instr id (Program.instr_lt_of_parent (h.base.mem_instrs.mp hid))).2.2.2]
      exact h.base.instr_live hid
    unfold Replacing.applyFirst
    refine ComesTo.after (a := s.program) (t := s) rfl ?_
    rw [if_neg (by simp [hlive])]
    exact h.serves hid hnew hr
  · have hnone : ∀ r, ¬ Asks s id r := fun r hr => hasks ⟨r, hr⟩
    refine (works_applyFirst h.toGrown hid (h.untouched id hnew).1 {}).mono ?_ ?_
    · rintro e (hrefused | ⟨cause, rfl, results, hrefuses⟩)
      · exact hrefused
      · obtain ⟨start, results, hgranted, -⟩ :=
          h.room.allocate (allocationName (s.program.instr id)) 1 hword
        simp [Request.perform, Functor.map, EStateM.map, hgranted] at hrefuses
    · rintro _ s' (⟨-, rfl⟩ | ⟨-, T', heir, answer, along, hw⟩)
      · exact ⟨fates, T, h.pass hid hnew, .quiet hnone rfl rfl⟩
      · obtain ⟨hfollowing, hqubits⟩ := h.quiet hid hnew hnone hword hw
        exact ⟨fates, T', hfollowing, .quiet hnone hqubits rfl⟩

end

end Replacing

end QirProfile
