import Mathlib.Data.List.Pairwise
import QirProfile.Proofs.Allocator.Books
import QirProfile.Proofs.ExecutionPath
import QirProfile.Proofs.Rule.Visits
import QirProfile.Transform.Basic
import QirProfile.Verify

/-!
# Which qubits get different addresses

Along the execution path the rules are tried on one instruction after the other, and the qubit
allocator sees their requests in that order of visits (`run_visits`). Two allocations that are placed
in this order lie apart if the first one has not been given back when the second one is placed
(`placed_apart`).

The order of visits is breadth first, and it is not the order of execution: a release in one arm of
a branch is visited before an allocation in the other arm, where the released qubit is still in use.
`branching` is such a program: on one path through it two live qubits get the same address
(`live_qubits_aliased`).
-/

namespace QirProfile

namespace Transform

open Replacing

variable {ids : List InstrId} {id : InstrId} {rules : List (Rule Addresses)}
  {settings : TransformSettings} {c c' : Compilation} {a a' : Allocator} {width : Nat}
  {s : RuleState Addresses} {b : Allocation}

/-! ## 1. Visits -/

/-- The state behind trying the rules on an instruction. -/
def visit (rules : List (Rule Addresses)) (s : RuleState Addresses) (id : InstrId) :
    RuleState Addresses :=
  match applyFirst rules id s with
  | .ok _ u => u
  | .error _ u => u

/-- The state behind trying the rules on instructions in order. -/
def visitAll (rules : List (Rule Addresses)) (s : RuleState Addresses) (ids : List InstrId) :
    RuleState Addresses :=
  ids.foldl (visit rules) s

/-- No rule fails on any of the instructions, tried in order. -/
def Succeeds (rules : List (Rule Addresses)) : RuleState Addresses → List InstrId → Prop
  | _, [] => True
  | s, id :: ids =>
    (∃ b, applyFirst rules id s = .ok b (visit rules s id)) ∧ Succeeds rules (visit rules s id) ids

section

variable {rules : List (Rule Addresses)} {s : RuleState Addresses}

@[simp] theorem visitAll_nil : visitAll rules s [] = s := rfl

@[simp] theorem visitAll_cons (id : InstrId) (ids : List InstrId) :
    visitAll rules s (id :: ids) = visitAll rules (visit rules s id) ids := rfl

theorem visitAll_append (ids js : List InstrId) :
    visitAll rules s (ids ++ js) = visitAll rules (visitAll rules s ids) js :=
  List.foldl_append

theorem succeeds_append {js : List InstrId} :
    Succeeds rules s (ids ++ js) ↔
      Succeeds rules s ids ∧ Succeeds rules (visitAll rules s ids) js := by
  induction ids generalizing s with
  | nil => simp [Succeeds]
  | cons id ids ih => simp [Succeeds, ih, and_assoc]

theorem visit_eq {b : Bool} {u : RuleState Addresses}
    (h : applyFirst rules id s = .ok b u) : visit rules s id = u := by
  unfold visit
  rw [h]

end

/-! ## 2. The order of visits -/

/-- A rule run that also remembers which instructions were visited, in order. -/
abbrev LoggedRun := RuleRun × List InstrId

/-- Tries the rules on every instruction of the path, and writes the instruction down. -/
def loggedVisitor (rules : List (Rule Addresses)) : Visitor LoggedRun := fun v t =>
  let log := t.extra.2 ++ v.toInstr?.toList
  match ruleVisitor rules v (t.map Prod.fst) with
  | .ok a u => .ok a (u.map (·, log))
  | .error e u => .error e (u.map (·, log))

/-- The walk of the rules along the execution path, with a log. -/
def loggedWalk (rules : List (Rule Addresses)) (settings : TransformSettings)
    (entries : List FuncId) : Walk LoggedRun Unit :=
  entries.forM fun entry => discard (Walk.walk settings.limits (loggedVisitor rules) entry)

/-- **The instructions on which a transformation tries its rules, in order**: from a program with
    these entry points and with these addresses handed out. -/
def visitOrder (rules : List (Rule Addresses)) (settings : TransformSettings) (q : Program)
    (a : Addresses) : List InstrId :=
  match loggedWalk rules settings (settings.entryPoints q)
      { program := q, extra := ({ addresses := a }, []) } with
  | .ok _ t | .error _ t => t.extra.2

theorem loggedVisitor_mimics (rules : List (Rule Addresses)) (v : Value) :
    Mimics Prod.fst (loggedVisitor rules v) (ruleVisitor rules v) := by
  intro t
  unfold loggedVisitor
  dsimp only
  cases ruleVisitor rules v (t.map Prod.fst) <;> rfl

/-- What rules at work see of the state of a walk. -/
def ruleState (t : PathState LoggedRun) : RuleState Addresses :=
  { program := t.program, scheduled := t.extra.1.scheduled, extra := t.extra.1.addresses }

/-- The rules were tried on the instructions that the log has grown by, and nothing else happened to
    what they see. -/
def Visited (rules : List (Rule Addresses)) (s t : PathState LoggedRun) : Prop :=
  t.doomed = s.doomed ∧ ∃ ids, t.extra.2 = s.extra.2 ++ ids ∧
    Succeeds rules (ruleState s) ids ∧ ruleState t = visitAll rules (ruleState s) ids

theorem visited_pathRelation (rules : List (Rule Addresses)) : PathRelation (Visited rules) where
  preorder :=
    { refl := fun s => ⟨rfl, [], (List.append_nil _).symm, trivial, rfl⟩
      trans := by
        rintro s t u ⟨hd, ids, hlog, hok, he⟩ ⟨hd', js, hlog', hok', he'⟩
        refine ⟨hd'.trans hd, ids ++ js, ?_, succeeds_append.mpr ⟨hok, he ▸ hok'⟩, ?_⟩
        · rw [hlog', hlog, List.append_assoc]
        · rw [he', he, visitAll_append] }
  doomed h := h.1
  books := by
    rintro s t vs ⟨-, ids, hlog, hok, he⟩
    exact ⟨rfl, ids, hlog, hok, he⟩

theorem ruleVisitor_ok {v : Value} {t t' : PathState RuleRun}
    {a : Option Value} (h : ruleVisitor rules v t = .ok a t') :
    (v.toInstr? = none ∧ t' = t) ∨ ∃ id b, v.toInstr? = some id ∧ t'.doomed = t.doomed ∧
      applyFirst rules id ⟨t.program, t.extra.scheduled, t.extra.addresses⟩ =
        .ok b ⟨t'.program, t'.extra.scheduled, t'.extra.addresses⟩ := by
  unfold ruleVisitor at h
  obtain ⟨_, t₁, hvisit, h⟩ := bind_ok h
  obtain ⟨-, rfl⟩ := pure_ok h
  cases hv : v.toInstr? with
  | none =>
    rw [hv] at hvisit
    obtain ⟨-, rfl⟩ := pure_ok hvisit
    exact .inl ⟨rfl, rfl⟩
  | some id =>
    rw [hv] at hvisit
    change tryRules rules id t = .ok _ t₁ at hvisit
    unfold tryRules at hvisit
    dsimp only at hvisit
    split at hvisit
    · rename_i b r hr
      cases hvisit
      exact .inr ⟨id, b, rfl, rfl, hr⟩
    · cases hvisit

theorem visited_loggedVisitor (rules : List (Rule Addresses)) (v : Value) :
    Keeps (Visited rules) (loggedVisitor rules v) := by
  intro t a t' h
  unfold loggedVisitor at h
  dsimp only at h
  split at h
  · rename_i a u hvisit
    cases h
    rcases ruleVisitor_ok hvisit with ⟨hv, rfl⟩ | ⟨id, b, hv, hdoomed, happly⟩
    · exact ⟨rfl, [], by rw [hv]; rfl, trivial, rfl⟩
    · have hstep : visit rules (ruleState t) id =
          ⟨u.program, u.extra.scheduled, u.extra.addresses⟩ := visit_eq happly
      refine ⟨hdoomed, [id], by rw [hv]; rfl, ⟨⟨b, ?_⟩, trivial⟩, hstep.symm⟩
      rw [hstep]
      exact happly
  · cases h

theorem loggedWalk_ok {q : Program}
    {a : Addresses} {t : PathState RuleRun} {u : Unit}
    (h : ((settings.entryPoints q).forM fun entry =>
      discard (Walk.walk settings.limits (ruleVisitor rules) entry))
        { program := q, extra := { addresses := a } } = .ok u t) :
    ∃ w, loggedWalk rules settings (settings.entryPoints q)
        { program := q, extra := ({ addresses := a }, []) } = .ok u w ∧
      t = w.map Prod.fst ∧ visitOrder rules settings q a = w.extra.2 := by
  have hmimics : Mimics Prod.fst (loggedWalk rules settings (settings.entryPoints q))
      ((settings.entryPoints q).forM fun entry =>
        discard (Walk.walk settings.limits (ruleVisitor rules) entry)) := by
    refine Walk.mimics_forM (fun entry => ?_) _
    refine Walk.mimics_bind ?_ fun _ => Walk.mimics_pure _
    exact Walk.walk_mimics (loggedVisitor_mimics rules) entry
  have hsame := hmimics { program := q, extra := ({ addresses := a }, []) }
  unfold visitOrder
  cases hlogged : loggedWalk rules settings (settings.entryPoints q)
      { program := q, extra := ({ addresses := a }, []) } with
  | error e w =>
    rw [hlogged] at hsame
    exact nomatch h.symm.trans hsame
  | ok _ w =>
    rw [hlogged] at hsame
    have hlast := h.symm.trans hsame
    injection hlast with _ hlast
    exact ⟨w, rfl, hlast, rfl⟩

theorem tryAll_visits (hpath : settings.executionPathOnly = true) {q : Program} {a : Addresses}
    {t' : PathState RuleRun} {u : Unit}
    (h : tryAll rules settings (settings.entryPoints q)
      { program := q, extra := { addresses := a } } = .ok u t') :
    Succeeds rules { program := q, extra := a } (visitOrder rules settings q a) ∧
      t'.extra.addresses =
        (visitAll rules { program := q, extra := a } (visitOrder rules settings q a)).extra := by
  have := (visited_pathRelation rules).preorder
  unfold tryAll at h
  rw [if_pos hpath] at h
  obtain ⟨_, t₁, hwalk, h⟩ := bind_ok h
  obtain rfl := modify_ok h
  obtain ⟨w, hlogged, rfl, horder⟩ := loggedWalk_ok hwalk
  have hkept : Visited rules { program := q, extra := ({ addresses := a }, []) } w := by
    refine sequential_keeps.forM (fun entry => ?_) _ _ _ w hlogged
    refine keeps_bind ?_ fun _ => keeps_pure _
    exact Walk.walk_keeps (visited_pathRelation rules) (visited_loggedVisitor rules) entry
  obtain ⟨-, ids, hlog, hok, he⟩ := hkept
  obtain rfl : w.extra.2 = ids := hlog
  rw [horder]
  exact ⟨hok, congrArg RuleState.extra he⟩

/-! ## 3. The transformation as visits -/

/-- The phases before the rules. -/
def prepare (settings : TransformSettings) : Transforming TransformStatistics :=
  (if settings.cloneFunctions then compile (specialiseCalls settings) else pure 0) >>= fun cloned =>
    if settings.deleteDeadCode then compile (removeDeadCode settings { functionsCloned := cloned })
    else pure { functionsCloned := cloned }

theorem run_eq (rules : List (Rule Addresses)) (settings : TransformSettings) :
    run rules settings = modify (fun c => { c with addresses := setReuse settings c.addresses }) >>=
      fun _ => prepare settings >>= applyRules rules settings := by
  unfold run prepare
  cases settings.cloneFunctions <;> cases settings.deleteDeadCode <;> simp [bind_assoc]

theorem compile_ok {α : Type} {f : Compile α} {a : α} :
    compile f c = .ok a c' ↔ ∃ q, f c.program = .ok a q ∧ c' = { c with program := q } := by
  unfold compile
  cases f c.program <;> simp [eq_comm]

theorem prepare_ok {stats : TransformStatistics}
    (h : prepare settings c = .ok stats c') : c'.addresses = c.addresses := by
  unfold prepare at h
  obtain ⟨cloned, c₁, hclone, h⟩ := bind_ok h
  have h₁ : c₁.addresses = c.addresses := by
    split at hclone
    · obtain ⟨_, -, rfl⟩ := compile_ok.mp hclone
      rfl
    · obtain ⟨-, rfl⟩ := pure_ok hclone
      rfl
  split at h
  · obtain ⟨_, -, rfl⟩ := compile_ok.mp h
    exact h₁
  · obtain ⟨-, rfl⟩ := pure_ok h
    exact h₁

theorem run_visits (hpath : settings.executionPathOnly = true) {stats : TransformStatistics}
    (h : run rules settings c = .ok stats c') :
    ∃ stats₁ q,
      let a := setReuse settings c.addresses
      prepare settings ⟨c.program, a⟩ = .ok stats₁ ⟨q, a⟩ ∧
      Succeeds rules { program := q, extra := a } (visitOrder rules settings q a) ∧
      c'.addresses =
        (visitAll rules { program := q, extra := a } (visitOrder rules settings q a)).extra := by
  rw [run_eq] at h
  obtain ⟨_, c₁, hmod, h⟩ := bind_ok h
  obtain rfl := modify_ok hmod
  obtain ⟨stats₁, c₂, hprepare, h⟩ := bind_ok h
  obtain ⟨q, a₂⟩ := c₂
  obtain rfl : a₂ = setReuse settings c.addresses := prepare_ok hprepare
  unfold applyRules at h
  obtain ⟨c₃, c₄, hget, h⟩ := bind_ok h
  obtain ⟨rfl, rfl⟩ := get_ok hget
  dsimp only at h
  obtain ⟨rr, c₅, hrules, h⟩ := bind_ok h
  obtain ⟨removed, c₆, hcarry, h⟩ := bind_ok h
  obtain ⟨-, rfl⟩ := pure_ok h
  obtain ⟨_, -, rfl⟩ := compile_ok.mp hcarry
  unfold runRules at hrules
  split at hrules
  · rename_i u t htry
    cases hrules
    obtain ⟨hok, he⟩ := tryAll_visits hpath htry
    exact ⟨stats₁, q, hprepare, hok, he⟩
  · cases hrules

/-! ## 4. Placing and giving back -/

/-- A visit of `id` in the state `s` places the allocation `b`. -/
def Places (rules : List (Rule Addresses)) (s : RuleState Addresses) (id : InstrId)
    (b : Allocation) : Prop :=
  b ∉ s.extra.qubits.live ∧ b ∈ (visit rules s id).extra.qubits.live

/-- A visit of `id` in the state `s` gives the allocation `b` back. -/
def GivesBack (rules : List (Rule Addresses)) (s : RuleState Addresses) (id : InstrId)
    (b : Allocation) : Prop :=
  b ∈ s.extra.qubits.live ∧ b ∉ (visit rules s id).extra.qubits.live

/-- In the state `s`, the instruction `id` is to give way to a pointer to the static address of
    `b`. -/
def PointsTo (width : Nat) (s : RuleState Addresses) (id : InstrId) (b : Allocation) : Prop :=
  ∃ address, ⟨id, some address⟩ ∈ s.scheduled ∧
    (s.program.instr address).kind = .cast .inttoptr ∧
    (s.program.instr address).operands = [.ofInt width b.start]

theorem serve_of_allocate {name : String} {count start : Nat}
    (h : Allocator.allocate name count a = .ok start a') : a.serve (.allocate name count) = a' := by
  simp [Allocator.serve, Allocator.Request.perform, Functor.map, EStateM.map, h]

theorem serve_of_release {address : Nat}
    (h : Allocator.release address a = .ok () a') : a.serve (.release address) = a' := by
  simp [Allocator.serve, Allocator.Request.perform, Functor.map, EStateM.map, h]

theorem sound_qubitWork {s' : RuleState Addresses}
    (h : s.extra.qubits.Sound) (hwork : QubitWork width id s s') : s'.extra.qubits.Sound := by
  cases hwork with
  | idle hsame => exact hsame ▸ h
  | placed hallocate => exact serve_of_allocate hallocate ▸ Allocator.sound_serve h _
  | released hrelease => exact serve_of_release hrelease ▸ Allocator.sound_serve h _

theorem live_of_allocated {name : String} {count start : Nat}
    (h : Allocator.Allocated a name count start a') :
    a'.live = a.live ∨ a'.live = Allocator.insertLive ⟨name, start, count⟩ a.live := by
  cases h with
  | empty => exact .inl rfl
  | reused _ _ hbooks => exact .inr (show a'.books.live = _ by rw [hbooks]; rfl)
  | fresh _ _ _ _ hbooks => exact .inr (show a'.books.live = _ by rw [hbooks]; rfl)

theorem mem_live_of_release {address : Nat}
    (h : Allocator.release address a = .ok () a') (hb : b ∈ a'.live) : b ∈ a.live := by
  rw [← serve_of_release h] at hb
  rcases Allocator.serve_release a address with ⟨-, hs⟩ | ⟨c, -, -, -, hs⟩
  · rw [hs] at hb
    exact hb
  · rw [hs] at hb
    have hlive : (a.putBack c).live = a.live.filter (·.start != c.start) := by
      unfold Allocator.putBack
      dsimp only
      split <;> rfl
    rw [hlive] at hb
    exact List.mem_of_mem_filter hb

theorem pointsTo_of_places (hwork : QubitWork width id s (visit rules s id))
    (hb : Places rules s id b) :
    PointsTo width (visit rules s id) id b ∧
      ∀ e ∈ s.extra.qubits.live, e ∈ (visit rules s id).extra.qubits.live := by
  obtain ⟨hold, hnew⟩ := hb
  cases hwork with
  | idle hsame =>
    rw [hsame] at hnew
    exact absurd hnew hold
  | placed hallocate hplace hkind hoperands =>
    rcases live_of_allocated (Allocator.allocate_ok hallocate) with hlive | hlive
    · rw [hlive] at hnew
      exact absurd hnew hold
    · rw [hlive] at hnew ⊢
      refine ⟨?_, fun e he => ?_⟩
      · rcases List.mem_cons.mp ((Allocator.insertLive_perm _ _).mem_iff.mp hnew) with rfl | hmem
        · exact ⟨_, hplace, hkind, hoperands⟩
        · exact absurd hmem hold
      · exact (Allocator.insertLive_perm _ _).mem_iff.mpr (List.mem_cons_of_mem _ he)
  | released hrelease => exact absurd (mem_live_of_release hrelease hnew) hold

/-! ## 5. Allocations lie apart -/

section

variable {rules : List (Rule Addresses)} {width : Nat} {s : RuleState Addresses}

theorem qubitWork_visit (hrules : ∀ r ∈ rules, EachReplacer (Orderly width) r)
    (hok : Succeeds rules s (id :: ids)) :
    QubitWork width id s (visit rules s id) := by
  obtain ⟨⟨b, h⟩, -⟩ := hok
  exact qubitWork_applyFirst hrules h

theorem sound_visitAll (hrules : ∀ r ∈ rules, EachReplacer (Orderly width) r) (h : s.extra.qubits.Sound)
    (hok : Succeeds rules s ids) :
    (visitAll rules s ids).extra.qubits.Sound := by
  induction ids generalizing s with
  | nil => exact h
  | cons id ids ih => exact ih (sound_qubitWork h (qubitWork_visit hrules hok)) hok.2

theorem live_visitAll (hb : b ∈ s.extra.qubits.live)
    (hkept : ∀ js id ks, ids = js ++ id :: ks → ¬ GivesBack rules (visitAll rules s js) id b) :
    b ∈ (visitAll rules s ids).extra.qubits.live := by
  induction ids generalizing s with
  | nil => exact hb
  | cons id ids ih =>
    have hid : b ∈ (visit rules s id).extra.qubits.live := by
      by_contra hnot
      exact hkept [] id ids rfl ⟨hb, hnot⟩
    refine ih hid fun js id' ks he => ?_
    exact hkept (id :: js) id' ks (by rw [he]; rfl)

end

theorem apart_of_live (h : a.Sound) {e : Allocation} (hb : b ∈ a.live)
    (he : e ∈ a.live) (hne : b ≠ e) {x y : Nat} (hx : x ∈ b.addresses) (hy : y ∈ e.addresses) :
    x < span 64 ∧ y < span 64 ∧ x ≠ y := by
  have hword : ∀ d ∈ a.live, ∀ z ∈ d.addresses, z < span 64 := by
    intro d hd z hz
    have hheld : z ∈ a.held := List.mem_append_left _ (List.mem_flatMap.mpr ⟨d, hd, hz⟩)
    exact Nat.lt_trans (h.below z hheld) h.extent_word
  refine ⟨hword b hb x hx, hword e he y hy, ?_⟩
  rintro rfl
  have hdisjoint := Allocator.disjoint_of_nodup (List.nodup_append'.mp h.nodup).1
  have : Std.Symm fun b c : Allocation => b.addresses.Disjoint c.addresses :=
    ⟨fun _ _ hd _ hx hy => hd hy hx⟩
  exact hdisjoint.forall hb he hne hx hy

theorem ofInt_ne {x y : Nat} (hx : x < span 64) (hy : y < span 64) (h : x ≠ y) :
    Value.ofInt 64 x ≠ Value.ofInt 64 y := by
  intro e
  have hmod : (x : Int).bmod (span 64) = (y : Int).bmod (span 64) := by
    injection e
  have hemod : (x : Int) % (span 64 : Nat) = (y : Int) % (span 64 : Nat) := by
    rw [← Int.bmod_emod, hmod, Int.bmod_emod]
  rw [Int.emod_eq_of_lt (by omega) (by omega), Int.emod_eq_of_lt (by omega) (by omega)] at hemod
  omega

/-! ## 6. Paths of control, and two arms of a branch -/

end Transform

/-- A point of an execution: the instructions still to come in the current block, and in the blocks
    of the callers. -/
abbrev Point := List (List InstrId)

namespace Program

/-- Where control goes behind an instruction, in the function that it stands in. -/
inductive GoesOn (p : Program) (id : InstrId) (rest : List InstrId) : List InstrId → Prop where
  | next (h : (p.instr id).isTerminator = false) : GoesOn p id rest rest
  | jump {b : BlockId} (h : b ∈ (p.instr id).successors) : GoesOn p id rest (p.block b).instrs

/-- The entry block of the function that an instruction calls, if it has a body. -/
def enters? (p : Program) (id : InstrId) : Option BlockId :=
  (p.instr id).calledFunction?.bind fun f => (p.func f).entryBlock?

/-- One instruction is run. -/
inductive Runs (p : Program) : Point → InstrId → Point → Prop where
  | stay {id : InstrId} {rest next : List InstrId} {callers : Point} (h : p.enters? id = none)
      (hnext : GoesOn p id rest next) : Runs p ((id :: rest) :: callers) id (next :: callers)
  | enter {id : InstrId} {rest next : List InstrId} {callers : Point} {b : BlockId}
      (h : p.enters? id = some b) (hnext : GoesOn p id rest next) :
      Runs p ((id :: rest) :: callers) id ((p.block b).instrs :: next :: callers)
  | leave {id : InstrId} {rest : List InstrId} {callers : Point} (h : (p.instr id).kind = .ret) :
      Runs p ((id :: rest) :: callers) id callers

/-- The instructions run on a path of control from a function to a point. -/
inductive Path (p : Program) (entry : FuncId) : List InstrId → Point → Prop where
  | start {b : BlockId} (h : (p.func entry).entryBlock? = some b) :
      Path p entry [] [(p.block b).instrs]
  | step {ids : List InstrId} {id : InstrId} {x y : Point} (h : Path p entry ids x)
      (hrun : Runs p x id y) : Path p entry (ids ++ [id]) y

end Program

namespace Transform

open Replacing

/-- A qubit `a` is allocated and a condition is asked. In the arm `⟨1⟩` the qubit is released. In the
    arm `⟨2⟩` a second qubit `b` is allocated, and both are used together. -/
def branching (ifFalse ifTrue : BlockId) : Program where
  name := "branching"
  namedTypes := [("Qubit", none)]
  functions := #[
    ⟨"__quantum__rt__qubit_allocate", .ptr (.named "Qubit"), [], false, none, none, [], [], false⟩,
    ⟨"__quantum__rt__qubit_release", .void, [⟨none, .ptr (.named "Qubit")⟩], false, none, none, [],
      [], false⟩,
    ⟨"__quantum__qis__cnot__body", .void,
      [⟨none, .ptr (.named "Qubit")⟩, ⟨none, .ptr (.named "Qubit")⟩], false, none, none, [], [],
      false⟩,
    ⟨"Main", .void, [⟨some "c", .int 1⟩], false, none, none, [.pair "EntryPoint" none],
      [⟨0⟩, ⟨1⟩, ⟨2⟩, ⟨3⟩], false⟩]
  blocks := #[
    ⟨some "entry", some ⟨3⟩, [⟨0⟩, ⟨1⟩], false⟩,
    ⟨some "left", some ⟨3⟩, [⟨2⟩, ⟨3⟩], false⟩,
    ⟨some "right", some ⟨3⟩, [⟨4⟩, ⟨5⟩, ⟨6⟩, ⟨7⟩], false⟩,
    ⟨some "done", some ⟨3⟩, [⟨8⟩], false⟩]
  instrs := #[
    ⟨.call .none, .ptr (.named "Qubit"), [.func ⟨0⟩], some "a", some ⟨0⟩, false⟩,
    ⟨.br, .void, [.arg ⟨3⟩ 0, .block ifFalse, .block ifTrue], none, some ⟨0⟩, false⟩,
    ⟨.call .none, .void, [.instr ⟨0⟩, .func ⟨1⟩], none, some ⟨1⟩, false⟩,
    ⟨.br, .void, [.block ⟨3⟩], none, some ⟨1⟩, false⟩,
    ⟨.call .none, .ptr (.named "Qubit"), [.func ⟨0⟩], some "b", some ⟨2⟩, false⟩,
    ⟨.call .none, .void, [.instr ⟨0⟩, .instr ⟨4⟩, .func ⟨2⟩], none, some ⟨2⟩, false⟩,
    ⟨.call .none, .void, [.instr ⟨4⟩, .func ⟨1⟩], none, some ⟨2⟩, false⟩,
    ⟨.br, .void, [.block ⟨3⟩], none, some ⟨2⟩, false⟩,
    ⟨.ret, .void, [], none, some ⟨3⟩, false⟩]

instance (rules : List (Rule Addresses)) (s : RuleState Addresses) (id : InstrId) (b : Allocation) :
    Decidable (Places rules s id b) :=
  inferInstanceAs (Decidable (_ ∧ _))

instance (rules : List (Rule Addresses)) (s : RuleState Addresses) (id : InstrId) (b : Allocation) :
    Decidable (GivesBack rules s id b) :=
  inferInstanceAs (Decidable (_ ∧ _))

/-! ## 7. Apart in the order of visits, and only in that order -/

/-- Two qubits that are alive at once in the order of the visits have different addresses, in every
    program. -/
theorem placed_apart {p : Program} {stats : TransformStatistics} {c : Compilation}
    (h : run ({} : RuleSettings).rules {} { program := p } = .ok stats c) :
    ∃ stats₁ q, prepare {} { program := p } = .ok stats₁ { program := q } ∧
      let rules := ({} : RuleSettings).rules
      let behind := visitAll rules { program := q, extra := {} }
      c.addresses = (behind (visitOrder rules {} q {})).extra ∧
      ∀ xs a ys d zs b e, visitOrder rules {} q {} = xs ++ a :: ys ++ d :: zs →
        Places rules (behind xs) a b → Places rules (behind (xs ++ a :: ys)) d e →
        (∀ js f ks, ys = js ++ f :: ks → ¬ GivesBack rules (behind (xs ++ a :: js)) f b) →
        PointsTo 64 (behind (xs ++ [a])) a b ∧ PointsTo 64 (behind (xs ++ a :: ys ++ [d])) d e ∧
        ∀ x ∈ b.addresses, ∀ y ∈ e.addresses, Value.ofInt 64 x ≠ Value.ofInt 64 y := by
  obtain ⟨stats₁, q, hprepare, hok, haddresses⟩ := run_visits rfl h
  refine ⟨stats₁, q, hprepare, ?_⟩
  intro rules behind
  refine ⟨haddresses, ?_⟩
  intro xs a ys d zs b e hids hb he hkept
  have hrules : ∀ r ∈ rules, EachReplacer (Orderly 64) r := (catalogued_orderly 64).rules
  have hsound : (Addresses.qubits {}).Sound := Allocator.sound_withCapacity 8 true
  change Succeeds rules { program := q, extra := {} } (visitOrder rules {} q {}) at hok
  rw [hids] at hok
  obtain ⟨hokAll, hokD⟩ := succeeds_append.mp hok
  obtain ⟨-, hokA⟩ := succeeds_append.mp hokAll
  have hworkA : QubitWork 64 a (behind xs) (visit rules (behind xs) a) :=
    qubitWork_visit hrules hokA
  have hworkD : QubitWork 64 d (behind (xs ++ a :: ys))
      (visit rules (behind (xs ++ a :: ys)) d) := qubitWork_visit hrules hokD
  have hsoundD := sound_qubitWork (sound_visitAll hrules hsound hokAll) hworkD
  -- what `a` has placed is still live when `d` is visited, and behind that visit, too
  have hlive : b ∈ (behind (xs ++ a :: ys)).extra.qubits.live := by
    simp only [behind, visitAll_append, visitAll_cons] at hkept ⊢
    exact live_visitAll hb.2 hkept
  obtain ⟨hpointsA, -⟩ := pointsTo_of_places hworkA hb
  obtain ⟨hpointsD, hstays⟩ := pointsTo_of_places hworkD he
  have hne : b ≠ e := fun hbe => he.1 (hbe ▸ hlive)
  refine ⟨?_, ?_, fun x hx y hy => ?_⟩
  · simpa only [behind, visitAll_append, visitAll_cons, visitAll_nil] using hpointsA
  · simpa only [behind, visitAll_append, visitAll_cons, visitAll_nil] using hpointsD
  · obtain ⟨hxw, hyw, hxy⟩ := apart_of_live hsoundD (hstays b hlive) he.2 hne hx hy
    exact ofInt_ne hxw hyw hxy

theorem placed_apart_second_arm : ∃ stats₁ q,
    prepare {} { program := branching ⟨2⟩ ⟨1⟩ } = .ok stats₁ { program := q } ∧
    let rules := ({} : RuleSettings).rules
    let behind := visitAll rules { program := q, extra := {} }
    PointsTo 64 (behind [⟨0⟩]) ⟨0⟩ ⟨"a", 0, 1⟩ ∧
    PointsTo 64 (behind [⟨0⟩, ⟨1⟩, ⟨4⟩]) ⟨4⟩ ⟨"b", 1, 1⟩ := by
  let rules := ({} : RuleSettings).rules
  let start := fun q => ({ program := q, extra := {} } : RuleState Addresses)
  obtain ⟨stats, c, hrun, -⟩ :=
    exists_ok (r := run rules {} { program := branching ⟨2⟩ ⟨1⟩ }) (P := fun _ => True)
      (by decide +kernel)
  obtain ⟨stats₁, q, hprepare, -, hapart⟩ := placed_apart hrun
  obtain ⟨_, c₁, hprepare', hids, ha, hd, hkept⟩ :=
    exists_ok (r := prepare {} { program := branching ⟨2⟩ ⟨1⟩ })
      (P := fun c => visitOrder rules {} c.program {} =
          [] ++ ⟨0⟩ :: [⟨1⟩] ++ ⟨4⟩ :: [⟨5⟩, ⟨6⟩, ⟨7⟩, ⟨2⟩, ⟨3⟩, ⟨8⟩] ∧
        Places rules (visitAll rules (start c.program) []) ⟨0⟩ ⟨"a", 0, 1⟩ ∧
        Places rules (visitAll rules (start c.program) [⟨0⟩, ⟨1⟩]) ⟨4⟩ ⟨"b", 1, 1⟩ ∧
        ¬ GivesBack rules (visitAll rules (start c.program) [⟨0⟩]) ⟨1⟩ ⟨"a", 0, 1⟩)
      (by decide +kernel)
  obtain rfl : c₁ = { program := q } :=
    (EStateM.Result.ok.inj (hprepare'.symm.trans hprepare)).2
  obtain ⟨hpa, hpd, -⟩ := hapart [] ⟨0⟩ [⟨1⟩] ⟨4⟩ _ _ _ hids ha hd (by
    intro js f ks he
    obtain ⟨rfl, rfl, rfl⟩ : js = [] ∧ f = ⟨1⟩ ∧ ks = [] := by
      cases js with
      | nil => exact ⟨rfl, (List.cons.inj he).1.symm, (List.cons.inj he).2.symm⟩
      | cons g js => simp at he
    exact hkept)
  exact ⟨stats₁, q, hprepare, hpa, hpd⟩

/-- The release in one arm is visited before the allocation in the other: on a path through the
    second arm both qubits are alive, at address 0. -/
theorem live_qubits_aliased :
    (branching ⟨1⟩ ⟨2⟩).verify = .ok () ∧
    (branching ⟨1⟩ ⟨2⟩).Path ⟨3⟩ [⟨0⟩, ⟨1⟩, ⟨4⟩] [[⟨5⟩, ⟨6⟩, ⟨7⟩]] ∧
    [⟨0⟩, ⟨1⟩, ⟨4⟩].map (fun id => (branching ⟨1⟩ ⟨2⟩).calledName? (.instr id)) =
      [some "__quantum__rt__qubit_allocate", none, some "__quantum__rt__qubit_allocate"] ∧
    visitOrder ({} : RuleSettings).rules {} (branching ⟨1⟩ ⟨2⟩) {} =
      [⟨0⟩, ⟨1⟩, ⟨2⟩, ⟨3⟩, ⟨4⟩, ⟨5⟩, ⟨6⟩, ⟨7⟩, ⟨8⟩] ∧
    ∃ stats c, run ({} : RuleSettings).rules {} { program := branching ⟨1⟩ ⟨2⟩ } = .ok stats c ∧
      (c.program.instr ⟨5⟩).operands.map c.program.label =
        ["%a", "%b", "@__quantum__qis__cnot__body"] ∧
      (c.program.instr ⟨5⟩).operands.map (c.program.isCast .inttoptr) = [true, true, false] ∧
      (c.program.instr ⟨5⟩).operands.map c.program.operandsOf =
        [[.ofInt 64 0], [.ofInt 64 0], []] := by
  have hproblems : (branching ⟨1⟩ ⟨2⟩).problems = [] := by decide +kernel
  refine ⟨?_, ?_, by decide, by decide +kernel, exists_ok (by decide +kernel)⟩
  · unfold Program.verify
    rw [hproblems]
  · have h₀ : (branching ⟨1⟩ ⟨2⟩).Path ⟨3⟩ [] [[⟨0⟩, ⟨1⟩]] := .start (b := ⟨0⟩) rfl
    have h₁ : (branching ⟨1⟩ ⟨2⟩).Path ⟨3⟩ [⟨0⟩] [[⟨1⟩]] := .step h₀ (.stay rfl (.next rfl))
    have h₂ : (branching ⟨1⟩ ⟨2⟩).Path ⟨3⟩ [⟨0⟩, ⟨1⟩] [[⟨4⟩, ⟨5⟩, ⟨6⟩, ⟨7⟩]] :=
      .step h₁ (.stay rfl (.jump (b := ⟨2⟩) (by decide)))
    exact .step h₂ (.stay rfl (.next rfl))

end Transform

end QirProfile
