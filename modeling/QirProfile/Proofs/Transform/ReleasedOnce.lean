import QirProfile.Proofs.Transform.Persistence
import QirProfile.Proofs.Transform.PlainFailures
import QirProfile.Proofs.Transform.StaticAddresses

/-!
# Programs whose releases are not refused

On a path of control a qubit is given back once. But the rules are tried in every block that control
may reach, whatever the condition of a branch is, and all of them ask the same allocator. So it is
not the paths that count: no request is refused as long as no two calls of the body give the same
allocation back.

`Path.mem_paths` lists the paths of a given length, so that a statement about all paths can be
checked.
-/

namespace QirProfile

/-! ## 1. Paths that give all qubits back -/

namespace Program

variable {p : Program}

/-- The qubit allocated by `site` is given back on the way, and not used from there on. -/
def GivenBack (p : Program) (site : InstrId) : List InstrId → Prop
  | [] => False
  | i :: rest =>
    if p.Returns i site then ∀ j ∈ rest, (p.instr j).uses (.instr site) = false
    else p.GivenBack site rest

/-- Each qubit allocated on the way is given back once behind its allocation, and not used from there
    on. -/
def GivesAllBack (p : Program) : List InstrId → Prop
  | [] => True
  | i :: rest => (p.calledName? (.instr i) = some "__quantum__rt__qubit_allocate" →
      p.GivenBack i rest) ∧ p.GivesAllBack rest

instance decidableGivenBack (p : Program) (site : InstrId) :
    (ids : List InstrId) → Decidable (p.GivenBack site ids)
  | [] => inferInstanceAs (Decidable False)
  | i :: rest =>
    have := decidableGivenBack p site rest
    inferInstanceAs (Decidable (if p.Returns i site
      then ∀ j ∈ rest, (p.instr j).uses (.instr site) = false else p.GivenBack site rest))

instance decidableGivesAllBack (p : Program) :
    (ids : List InstrId) → Decidable (p.GivesAllBack ids)
  | [] => inferInstanceAs (Decidable True)
  | i :: rest =>
    have := decidableGivesAllBack p rest
    inferInstanceAs (Decidable ((p.calledName? (.instr i) =
      some "__quantum__rt__qubit_allocate" → p.GivenBack i rest) ∧ p.GivesAllBack rest))

/-- The instructions that may be run at a point, and where control is then. -/
def steps (p : Program) : Point → List (InstrId × Point)
  | (id :: rest) :: callers =>
    let nexts := (if (p.instr id).isTerminator then [] else [rest]) ++
      (p.instr id).successors.map fun b => (p.block b).instrs
    (if (p.instr id).kind = .ret then [(id, callers)] else []) ++
      nexts.map fun next => (id, (p.enters? id).elim (next :: callers) fun b =>
        (p.block b).instrs :: next :: callers)
  | _ => []

theorem mem_steps {x y : Point} {id : InstrId} (h : p.Runs x id y) : (id, y) ∈ p.steps x := by
  have hnext : ∀ {rest next : List InstrId}, p.GoesOn id rest next →
      next ∈ (if (p.instr id).isTerminator then [] else [rest]) ++
        (p.instr id).successors.map fun b => (p.block b).instrs := by
    rintro rest next (hgo | hjump)
    · rw [hgo]
      exact List.mem_append_left _ List.mem_cons_self
    · exact List.mem_append_right _ (List.mem_map.mpr ⟨_, hjump, rfl⟩)
  unfold steps
  cases h with
  | stay henters hgo =>
    refine List.mem_append_right _ (List.mem_map.mpr ⟨_, hnext hgo, ?_⟩)
    rw [henters]
    rfl
  | enter henters hgo =>
    refine List.mem_append_right _ (List.mem_map.mpr ⟨_, hnext hgo, ?_⟩)
    rw [henters]
    rfl
  | leave hret =>
    dsimp only
    rw [if_pos hret]
    exact List.mem_append_left _ List.mem_cons_self

/-- The paths of a given length, with the points they lead to. -/
def paths (p : Program) (entry : FuncId) : Nat → List (List InstrId × Point)
  | 0 => (p.func entry).entryBlock?.toList.map fun b => ([], [(p.block b).instrs])
  | n + 1 => (p.paths entry n).flatMap fun x => (p.steps x.2).map fun y => (x.1 ++ [y.1], y.2)

theorem Path.mem_paths {entry : FuncId} {ids : List InstrId} {x : Point} (h : p.Path entry ids x) :
    (ids, x) ∈ p.paths entry ids.length := by
  induction h with
  | start hentry =>
    rw [List.length_nil, paths, hentry]
    exact List.mem_cons_self
  | step _ hrun ih =>
    rw [List.length_append, List.length_singleton, paths]
    exact List.mem_flatMap.mpr ⟨_, ih, List.mem_map.mpr ⟨_, mem_steps hrun, rfl⟩⟩

theorem Path.short {entry : FuncId} {ids : List InstrId} {x : Point} {n : Nat}
    (hnone : p.paths entry n = []) (h : p.Path entry ids x) : ids.length < n := by
  by_contra hge
  have hall : ∀ k, p.paths entry (n + k) = [] := by
    intro k
    induction k with
    | zero => exact hnone
    | succ k ih => rw [← Nat.add_assoc, paths, ih, List.flatMap_nil]
  have hmem := h.mem_paths
  rw [← Nat.add_sub_cancel' (Nat.not_lt.mp hge), hall] at hmem
  cases hmem

theorem givesAllBack_of_listed {entry : FuncId} {n : Nat} (hnone : p.paths entry n = [])
    (hall : ∀ m < n, ∀ x ∈ p.paths entry m, x.2 = [] → p.GivesAllBack x.1) (ids : List InstrId)
    (h : p.Path entry ids []) : p.GivesAllBack ids :=
  hall _ (h.short hnone) _ h.mem_paths rfl

end Program

namespace Transform

open Program Replacing

variable {p q : Program} {f : FuncId}

/-! ## 2. Bodies that name what they give back -/

/-- A verified program with one entry point that calls declared functions only, and each of whose
    releases names an allocation of the same body directly. -/
structure Releasing (p : Program) (f : FuncId) : Prop where
  sound : p.Sound
  verified : p.verify = .ok ()
  invokes : ∀ k i, (p.func k).erased = false → p.functionOf? i = some k →
    (p.instr i).kind = .invoke → (p.instr i).invokeDestinations?.isSome = true
  entry : ({} : TransformSettings).entryPoints p = [f]
  declared : p.CallsDeclared f
  direct : ∀ i, p.functionOf? i = some f → (p.instr i).isCall = true → ∀ name ∈ releases,
    p.Calls i name → ∃ site, p.Returns i site ∧ p.functionOf? site = some f ∧
      (p.instr site).isCall = true

theorem Releasing.enclosed (h : Releasing p f) : p.Enclosed :=
  Verified.enclosed h.sound (verify_ok.mp h.verified)

theorem Releasing.called (h : Releasing p f) (hq : p.Persists q) {i : InstrId} {k : FuncId}
    (hi : p.functionOf? i = some f) (hk : (q.instr i).calledFunction? = some k) :
    (p.instr i).calledFunction? = some k ∧ q.func k = p.func k ∧ (p.func k).erased = false := by
  have hcalls := (Instr.calledFunction?_iff.mp hk).1
  obtain ⟨k', hk', hlive, hdecl⟩ := h.declared i hi ((hq.calls i).symm.trans hcalls)
  rw [hq.calledFunction? hk' hdecl, Option.some_inj] at hk
  exact hk ▸ ⟨hk', hq.declared k' hdecl, hlive⟩

theorem Releasing.calls_iff (h : Releasing p f) (hq : p.Persists q) {i : InstrId} {name : String}
    (hi : p.functionOf? i = some f) : q.Calls i name ↔ p.Calls i name := by
  constructor
  · rintro ⟨k, hk, hname⟩
    obtain ⟨hk', hsame, -⟩ := h.called hq hi hk
    exact ⟨k, hk', hsame ▸ hname⟩
  · rintro ⟨k, hk, hname⟩
    have hdecl := (h.declared.called hi hk).2
    exact ⟨k, hq.calledFunction? hk hdecl, (hq.declared k hdecl).symm ▸ hname⟩

theorem Releasing.isCall_of_two (h : Releasing p f) (hq : p.Persists q) {i : InstrId}
    (hi : p.functionOf? i = some f) (hcalls : (p.instr i).calls = true) {v callee : Value}
    (hoperands : (q.instr i).operands = [v, callee]) : (p.instr i).isCall = true := by
  refine (Bool.or_eq_true_iff.mp hcalls).resolve_right fun hinvoke => ?_
  have hkind : (p.instr i).kind = .invoke := by
    unfold Instr.isInvoke at hinvoke
    split at hinvoke
    · assumption
    · cases hinvoke
  have hentry : f ∈ ({} : TransformSettings).entryPoints p := h.entry ▸ List.mem_cons_self
  have hlive := mem_liveFunctions.mp (List.mem_of_mem_filter hentry)
  have hdest := h.invokes f i hlive hi hkind
  -- two operands leave no room for two destinations
  have hlasts := hq.operands i hcalls
  rw [hoperands] at hlasts
  obtain ⟨_, _, _, hrest, hoperands'⟩ := List.forall₂_cons_right_iff.mp hlasts
  obtain ⟨_, _, _, hnil, rfl⟩ := List.forall₂_cons_right_iff.mp hrest
  rw [Instr.invokeDestinations?_eq hkind, hoperands', List.forall₂_nil_right_iff.mp hnil] at hdest
  cases hdest

theorem operands_of_returns (hq : p.Persists q) {i site : InstrId} {v callee : Value}
    (hcalls : (p.instr i).calls = true) (hsite : (p.instr site).isCall = true)
    (hreturns : p.Returns i site) (hoperands : (q.instr i).operands = [v, callee]) :
    v = .instr site ∨ ∃ ty, v = .undef ty := by
  obtain ⟨callee', hp⟩ : ∃ callee', (p.instr i).operands = [.instr site, callee'] := by
    cases hreturns with
    | qubit _ _ h => exact ⟨_, h⟩
    | array _ _ h => exact ⟨_, h⟩
  have hlasts := hq.operands i hcalls
  rw [hp, hoperands] at hlasts
  cases hlasts with
  | cons hv _ => exact hv.result site rfl hsite

section

variable (h : Releasing p f) (hq : p.Persists q)

include h hq

theorem Releasing.direct_of_persists {i : InstrId} (hi : q.functionOf? i = some f) :
    Direct q i := by
  intro name hname hcalls
  obtain ⟨k, hk, -⟩ := id hcalls
  have hq_calls := (Instr.calledFunction?_iff.mp hk).1
  have hp_calls := (hq.calls i).symm.trans hq_calls
  have hi' := hq.stands i f hp_calls hi
  by_cases htwo : ∃ v callee, (q.instr i).operands = [v, callee]
  swap
  · exact .inr fun v callee hoperands => absurd ⟨v, callee, hoperands⟩ htwo
  obtain ⟨v, callee, hoperands⟩ := htwo
  obtain ⟨site, hreturns, hstands, hsite⟩ := h.direct i hi'
    (h.isCall_of_two hq hi' hp_calls hoperands) name hname ((h.calls_iff hq hi').mp hcalls)
  rcases operands_of_returns hq hp_calls hsite hreturns hoperands with rfl | ⟨ty, rfl⟩
  · refine .inl ⟨site, ?_, fun k' hk' => ?_⟩
    · cases hreturns with
      | qubit hrelease hallocate =>
        exact .qubit ((h.calls_iff hq hi').mpr hrelease) ((h.calls_iff hq hstands).mpr hallocate)
          hoperands
      | array hrelease hallocate =>
        exact .array ((h.calls_iff hq hi').mpr hrelease) ((h.calls_iff hq hstands).mpr hallocate)
          hoperands
    · obtain ⟨-, hsame, hlive'⟩ := h.called hq hstands hk'
      exact hsame ▸ hlive'
  · refine .inr fun w callee' hoperands' => ?_
    rw [hoperands] at hoperands'
    exact ⟨ty, (List.cons.inj hoperands').1.symm⟩

theorem Releasing.returns_back {i site : InstrId} (hi : q.functionOf? i = some f)
    (ho : q.operation? i = some (.release site)) :
    p.functionOf? i = some f ∧ p.Returns i site := by
  rcases operation?_cases ho with ⟨heq, -⟩ | ⟨_, _, heq, -⟩ |
    ⟨site', name, heq, hcalls, hname, callee, hoperands⟩
  · cases heq
  · cases heq
  cases heq
  obtain ⟨k, hk, -⟩ := id hcalls
  have hq_calls := (Instr.calledFunction?_iff.mp hk).1
  have hp_calls := (hq.calls i).symm.trans hq_calls
  have hi' := hq.stands i f hp_calls hi
  obtain ⟨site', hreturns, -, hsite⟩ := h.direct i hi'
    (h.isCall_of_two hq hi' hp_calls hoperands) name hname ((h.calls_iff hq hi').mp hcalls)
  rcases operands_of_returns hq hp_calls hsite hreturns hoperands with heq | ⟨ty, heq⟩
  · cases heq
    exact ⟨hi', hreturns⟩
  · cases heq

theorem Releasing.serving (hlive : (q.func f).erased = false)
    (hdefined : (q.func f).isDeclaration = false)
    (hwords : q.instrs.size < span 64) (hdemand : q.demand (q.route f) < span 63) :
    Serving q f (· ∈ (q.func f).blocks) where
  sound := hq.enclosed.sound
  words := hwords
  live := hlive
  entry := by
    obtain ⟨entry, rest, hblocks⟩ := List.exists_cons_of_ne_nil
      (mt List.isEmpty_iff.mpr (Bool.eq_false_iff.mp hdefined))
    refine ⟨entry, ?_, hblocks ▸ List.mem_cons_self⟩
    rw [Func.entryBlock?, hblocks]
    rfl
  confined := hq.enclosed.confined hlive (hq.callsDeclared h.declared)
  direct _ _ hb hi := h.direct_of_persists hq (hq.enclosed.sound.functionOf_of_mem hb hi)
  demand := hdemand

end

/-! ## 3. Runs that are not refused -/

theorem applyRules_of_none {rules : List (Rule Addresses)} {s : TransformSettings}
    {stats : TransformStatistics} {c : Compilation} {E : CompileError → Prop}
    (hpath : s.executionPathOnly = true) (hentry : s.entryPoints c.program = []) :
    ComesTo (applyRules rules s stats) c E fun _ c' => c' = c := by
  have htry : ∀ t, tryAll rules s [] t = .ok () t := by
    intro t
    unfold tryAll
    rw [if_pos hpath]
    rfl
  have hrules : runRules rules s [] c = .ok { addresses := c.addresses } c := by
    unfold runRules
    rw [htry]
  have hcarry : compile (carryOut []) c = .ok 0 c := rfl
  unfold applyRules
  refine ComesTo.after (a := c) (t := c) rfl ?_
  dsimp only
  rw [hentry]
  exact ComesTo.after hrules (ComesTo.after hcarry (comesTo_of_ok rfl rfl))

section

variable (h : Releasing p f) (honce : ∀ i i' site, p.functionOf? i = some f →
  p.functionOf? i' = some f → p.Returns i site → p.Returns i' site → i = i')

include h honce

theorem Releasing.walk (hq : p.Persists q) (hlive : (q.func f).erased = false)
    (hwords : q.instrs.size < span 64) (hdemand : q.demand (q.route f) < span 63) :
    ComesTo (Walk.walk ({} : TransformSettings).limits (ruleVisitor ({} : RuleSettings).rules) f)
      { program := q, extra := { addresses := {} } } NoRefusal fun _ u => ∃ n r,
        carryOut u.extra.scheduled
          (u.program.updateFunc f (annotate {} u.extra.addresses)) = .ok n r := by
  cases hdefined : (q.func f).isDeclaration with
  | true =>
    have hover : Walk.passesOver
        (⟨q, [], [], { addresses := {} }⟩ : PathState RuleRun) f = true := by
      rw [Walk.passesOver, hdefined, Bool.or_true, Bool.true_or]
    unfold Walk.walk
    exact comesTo_of_ok ((Walk.walkWithin_apply ..).trans (if_pos hover)) ⟨0, _, rfl⟩
  | false =>
    have hserving := h.serving hq hlive hdefined hwords hdemand
    have hsound := hq.enclosed.sound
    obtain ⟨hnodup, hstands⟩ := hserving.confined.route (f := f) hsound fun b hb =>
      List.mem_of_mem_head? hb
    have hinside : ∀ i ∈ q.route f, q.functionOf? i = some f := by
      intro i hi
      obtain ⟨b, hb, hib⟩ := hstands i hi
      exact hsound.functionOf_of_mem hb hib
    obtain ⟨fates, a, hreplay⟩ := replay_ok (a := {}) fresh_start.qubits rfl rfl rfl hnodup
      (Nat.lt_trans hdemand (by decide)) fun i hi i' hi' site ho ho' => by
        obtain ⟨hf, hreturns⟩ := h.returns_back hq (hinside i hi) ho
        obtain ⟨hf', hreturns'⟩ := h.returns_back hq (hinside i' hi') ho'
        exact honce i i' site hf hf' hreturns hreturns'
    refine (hserving.walk fresh_start (by decide)).mono ?_ ?_
    · rintro e (⟨cause, b, herror, -⟩ | ⟨name, -, -, -, -, -, rfl⟩)
      · have hboth := herror.symm.trans hreplay
        cases hboth
      · exact fun cause => CompileError.noConfusion
    · rintro - u hreplayed
      obtain ⟨n, r, hcarry, -⟩ := hreplayed.carryOut {} f
      exact ⟨n, r, hcarry⟩

theorem Releasing.applyRules (hq : p.Persists q) (hwords : q.instrs.size < span 64)
    (hdemand : q.demand (q.route f) < span 63) (stats : TransformStatistics) :
    ComesTo (applyRules ({} : RuleSettings).rules {} stats) { program := q } NoRefusal
      fun _ _ => True := by
  have hentries : ∀ k ∈ ({} : TransformSettings).entryPoints q, k = f ∧ (q.func k).erased = false := by
    intro k hk
    obtain ⟨hmem, hattr⟩ := List.mem_filter.mp hk
    have hlive := mem_liveFunctions.mp hmem
    refine ⟨List.mem_singleton.mp ?_, hlive⟩
    rw [← h.entry]
    refine List.mem_filter.mpr ⟨mem_liveFunctions.mpr ?_, ?_⟩
    · refine Bool.eq_false_iff.mpr fun herased => ?_
      rw [(hq.func k).2 herased] at hlive
      cases hlive
    · rwa [Func.hasAttribute, (hq.func k).1] at hattr
  have hnodup : (({} : TransformSettings).entryPoints q).Nodup := (nodup_liveFunctions q).filter _
  rcases hlist : ({} : TransformSettings).entryPoints q with _ | ⟨k, _ | ⟨k', rest⟩⟩
  all_goals
    rw [hlist] at hentries hnodup
  · exact (applyRules_of_none rfl hlist).mono (fun _ he => he) fun _ _ _ => trivial
  · obtain ⟨rfl, hlive⟩ := hentries k List.mem_cons_self
    refine applyRules_of_walk rfl hlist ((h.walk honce hq hlive hwords hdemand).mono
      (fun _ he => he) ?_)
    rintro - u ⟨n, r, hcarry⟩
    exact ⟨n, r, hcarry, fun _ => trivial⟩
  · obtain ⟨rfl, -⟩ := hentries k List.mem_cons_self
    obtain ⟨rfl, -⟩ := hentries k' (List.mem_cons_of_mem k List.mem_cons_self)
    exact absurd List.mem_cons_self (List.nodup_cons.mp hnodup).1

/-- No request is refused if no two calls of the body give the same allocation back and there is
    room for all that it asks for. -/
theorem run_unrefused (hroom : ∀ stats q, prepare {} { program := p } = .ok stats { program := q } →
      q.instrs.size < span 64 ∧ q.demand (q.route f) < span 63) (cause : AllocationError)
    (c : Compilation) :
    run ({} : RuleSettings).rules {} { program := p } ≠ .error (.allocation cause) c := by
  have hrun : ComesTo (run ({} : RuleSettings).rules {}) { program := p } NoRefusal
      fun _ _ => True := by
    rw [run_eq]
    refine ComesTo.after (a := ()) (t := { program := p }) rfl (ComesTo.bind ?_)
    cases hprepare : prepare {} { program := p } with
    | error e c =>
      exact comesTo_of_error hprepare (prepare_failsWith plainFailures_noRefusal {} _ _ _ hprepare)
    | ok stats c =>
      obtain ⟨q, a⟩ := c
      obtain rfl : a = {} := prepare_ok hprepare
      obtain ⟨hwords, hdemand⟩ := hroom stats q hprepare
      exact comesTo_of_ok hprepare (h.applyRules honce
        (persists_prepare rfl h.enclosed h.entry h.declared hprepare) hwords hdemand stats)
  intro herror
  exact hrun.of_error herror cause rfl

end

theorem releasing_of_listed (hp : p.Sound) (hproblems : p.problems = [])
    (hentry : ({} : TransformSettings).entryPoints p = [f])
    (hinvokes : ∀ n < p.instrs.size, (p.instr ⟨n⟩).isInvoke = false)
    (hdeclared : ∀ i ∈ p.instrsOf f, (p.instr i).calls = true →
      ∃ k ∈ (p.instr i).calledFunction?.toList, (p.func k).erased = false ∧
        (p.func k).isDeclaration = true)
    (hdirect : ∀ i ∈ p.instrsOf f, ∀ name ∈ releases, p.calledName? (.instr i) = some name →
      ∃ site ∈ p.instrsOf f, p.Returns i site ∧ (p.instr site).isCall = true) : Releasing p f where
  sound := hp
  verified := by
    unfold Program.verify
    rw [hproblems]
  invokes k i _ hi hkind := by
    have hlt := instr_lt_of_live (hp.live_of_functionOf hi)
    have hnone := hinvokes i.index hlt
    rw [Instr.isInvoke, hkind] at hnone
    cases hnone
  entry := hentry
  declared i hi hcalls := by
    obtain ⟨k, hk, hdecl⟩ := hdeclared i (hp.mem_instrsOf.mpr hi) hcalls
    exact ⟨k, Option.mem_toList.mp hk, hdecl⟩
  direct i hi _ name hname hcalls := by
    obtain ⟨site, hsite, hreturns, hcall⟩ :=
      hdirect i (hp.mem_instrsOf.mpr hi) name hname (calls_iff.mp hcalls)
    exact ⟨site, hreturns, hp.mem_instrsOf.mp hsite, hcall⟩

/-- A qubit is allocated, a condition is asked, and the two arms meet again. -/
def parting (left right done : List InstrId) (instrs : Array Instr) : Program where
  name := "parting"
  namedTypes := [("Qubit", none)]
  functions := #[
    ⟨"__quantum__rt__qubit_allocate", .ptr (.named "Qubit"), [], false, none, none, [], [], false⟩,
    ⟨"__quantum__rt__qubit_release", .void, [⟨none, .ptr (.named "Qubit")⟩], false, none, none, [],
      [], false⟩,
    ⟨"Main", .void, [⟨some "c", .int 1⟩], false, none, none, [.pair "EntryPoint" none],
      [⟨0⟩, ⟨1⟩, ⟨2⟩, ⟨3⟩], false⟩]
  blocks := #[
    ⟨some "entry", some ⟨2⟩, [⟨0⟩, ⟨1⟩], false⟩,
    ⟨some "left", some ⟨2⟩, left, false⟩,
    ⟨some "right", some ⟨2⟩, right, false⟩,
    ⟨some "done", some ⟨2⟩, done, false⟩]
  instrs := #[
    ⟨.call .none, .ptr (.named "Qubit"), [.func ⟨0⟩], some "a", some ⟨0⟩, false⟩,
    ⟨.br, .void, [.arg ⟨2⟩ 0, .block ⟨1⟩, .block ⟨2⟩], none, some ⟨0⟩, false⟩] ++ instrs

/-- Each arm gives the qubit back. -/
def givingInArms : Program :=
  parting [⟨2⟩, ⟨3⟩] [⟨4⟩, ⟨5⟩] [⟨6⟩] #[
    ⟨.call .none, .void, [.instr ⟨0⟩, .func ⟨1⟩], none, some ⟨1⟩, false⟩,
    ⟨.br, .void, [.block ⟨3⟩], none, some ⟨1⟩, false⟩,
    ⟨.call .none, .void, [.instr ⟨0⟩, .func ⟨1⟩], none, some ⟨2⟩, false⟩,
    ⟨.br, .void, [.block ⟨3⟩], none, some ⟨2⟩, false⟩,
    ⟨.ret, .void, [], none, some ⟨3⟩, false⟩]

/-- The qubit is given back where the arms meet. -/
def givingAtEnd : Program :=
  parting [⟨2⟩] [⟨3⟩] [⟨4⟩, ⟨5⟩] #[
    ⟨.br, .void, [.block ⟨3⟩], none, some ⟨1⟩, false⟩,
    ⟨.br, .void, [.block ⟨3⟩], none, some ⟨2⟩, false⟩,
    ⟨.call .none, .void, [.instr ⟨0⟩, .func ⟨1⟩], none, some ⟨3⟩, false⟩,
    ⟨.ret, .void, [], none, some ⟨3⟩, false⟩]

theorem releasing_givingInArms : Releasing givingInArms ⟨2⟩ :=
  releasing_of_listed (by decide +kernel) (by decide +kernel) (by decide) (by decide) (by decide)
    (by decide)

theorem releasing_givingAtEnd : Releasing givingAtEnd ⟨2⟩ :=
  releasing_of_listed (by decide +kernel) (by decide +kernel) (by decide) (by decide) (by decide)
    (by decide)

theorem run_unrefused_givingAtEnd : Releasing givingAtEnd ⟨2⟩ ∧
    (∀ ids, givingAtEnd.Path ⟨2⟩ ids [] → givingAtEnd.GivesAllBack ids) ∧ ∀ cause c,
      run ({} : RuleSettings).rules {} { program := givingAtEnd } ≠ .error (.allocation cause) c := by
  refine ⟨releasing_givingAtEnd, givesAllBack_of_listed (n := 6) (by decide) (by decide), ?_⟩
  refine run_unrefused releasing_givingAtEnd (fun i i' site hi hi' hreturns hreturns' => ?_)
    fun stats q hprepare => ?_
  · have hone : ∀ i ∈ givingAtEnd.instrsOf ⟨2⟩, ∀ name ∈ releases,
        givingAtEnd.calledName? (.instr i) = some name → i = ⟨4⟩ := by
      decide
    have hself : ∀ {i}, givingAtEnd.functionOf? i = some ⟨2⟩ → givingAtEnd.Returns i site →
        i = ⟨4⟩ := by
      rintro i hi (⟨hcalls, -⟩ | ⟨hcalls, -⟩)
      all_goals
        exact hone i (releasing_givingAtEnd.sound.mem_instrsOf.mpr hi) _ (by decide)
          (calls_iff.mp hcalls)
    exact (hself hi hreturns).trans (hself hi' hreturns').symm
  · obtain ⟨stats', c, hok, hroom⟩ := exists_ok (r := prepare {} { program := givingAtEnd })
      (P := fun c => c.program.instrs.size < span 64 ∧
        c.program.demand (c.program.route ⟨2⟩) < span 63) (by decide +kernel)
    rw [hprepare] at hok
    cases hok
    exact hroom

/-- On every path the qubit is given back once, but there is a release in each arm, and the second
    one is refused. -/
theorem release_refused : Releasing givingInArms ⟨2⟩ ∧
    (∀ ids, givingInArms.Path ⟨2⟩ ids [] → givingInArms.GivesAllBack ids) ∧
    ∃ c, run ({} : RuleSettings).rules {} { program := givingInArms } =
      .error (.allocation (.notAllocated 0)) c := by
  refine ⟨releasing_givingInArms, givesAllBack_of_listed (n := 6) (by decide) (by decide), ?_⟩
  obtain ⟨_, c, herror, rfl⟩ := exists_error
    (r := run ({} : RuleSettings).rules {} { program := givingInArms })
    (P := fun e _ => e = .allocation (.notAllocated 0)) (by decide +kernel)
  exact ⟨c, herror⟩

end Transform

end QirProfile
