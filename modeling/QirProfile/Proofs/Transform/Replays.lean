import QirProfile.Proofs.Rule.Replay
import QirProfile.Proofs.Transform.Bodies
import QirProfile.Transform.Basic

/-!
# Trying the rules along a body replays it

Along a body that calls declared functions only, the rules are tried on one instruction after the
other, and each of them does to the qubit allocator what the call does in a replay. So trying them all
comes to a replay of the route through the body.
-/

namespace QirProfile

variable {p : Program} {done : List InstrId} {fates : InstrId → Option Fate}
  {s : RuleState Addresses} {rules : List (Rule Addresses)} {t : PathState RuleRun}

/-! ## 1. What a walk reads -/

namespace Program

theorem length_le_of_stand {ids : List InstrId} (hids : ids.Nodup)
    (hstand : ∀ i ∈ ids, (p.instr i).parent.isSome = true) : ids.length ≤ p.instrs.size := by
  have hsub : ids ⊆ (List.range p.instrs.size).map InstrId.mk := by
    intro i hi
    obtain ⟨b, hb⟩ := Option.isSome_iff_exists.mp (hstand i hi)
    exact List.mem_map.mpr ⟨i.index, List.mem_range.mpr (instr_lt_of_parent hb), rfl⟩
  have hlength := (hids.subperm hsub).length_le
  rwa [List.length_map, List.length_range] at hlength

end Program

namespace Replacing

open Program

theorem reads_of_grown {q : Program} {T : Traces} (h : Grown p T q)
    (huntouched : ∀ i, i ∉ done → T.turned i = i ∧ T.front i = [] ∧ T.back i = []) :
    p.Reads done q where
  func := h.func
  block b := (h.block b).2
  listed b hnew := by
    rw [h.listed b]
    refine (List.flatMap_congr fun i hi => ?_).trans (List.flatMap_singleton' _)
    obtain ⟨-, hfront, hback⟩ := huntouched i (hnew i hi)
    rw [Traces.place, hfront, hback, List.nil_append]
  instr b i hi := by
    have hlt := instr_lt_of_live (h.base.instr_live hi)
    exact ⟨(h.instr i hlt).2.2.2.trans (h.base.instr_live hi), h.reading i hlt⟩

theorem Following.reads {T : Traces} (h : Following p done fates T s) :
    p.Reads done s.program :=
  reads_of_grown h.toGrown h.untouched

end Replacing

namespace Transform

open Program Replacing

/-! ## 2. Bodies -/

/-- A function that calls declared functions only, in the blocks `B`. What it releases are the results
    of its own allocations, and together they ask for fewer addresses than a signed word can tell. -/
structure Serving (p : Program) (f : FuncId) (B : BlockId → Prop) : Prop where
  sound : p.Sound
  words : p.instrs.size < span 64
  live : (p.func f).erased = false
  entry : ∃ b, (p.func f).entryBlock? = some b ∧ B b
  confined : p.Confined B
  direct : ∀ b id, B b → id ∈ (p.block b).instrs → Direct p id
  demand : p.demand (p.route f) < span 63

/-- Addresses of which none has been handed out. -/
structure Fresh (a : Addresses) : Prop where
  qubits : a.qubits.Sound
  none : a.qubits.nextId = 0
  results : Allocator.Roomy a.results 0
  empty : a.emptyArrays = []

/-- Why a walk of a body can fail: a call of its replay does, or an invoke ends it. -/
def BodyFails (p : Program) (f : FuncId) (B : BlockId → Prop) (a : Allocator) (e : CompileError) :
    Prop :=
  (∃ cause b, p.replay (p.route f) a = .error cause b ∧ e = .allocation cause) ∨
    ∃ name b id, B b ∧ id ∈ (p.block b).instrs ∧ (p.instr id).isInvoke = true ∧
      e = .exceptionPath name

/-- What holds when the rules have been tried on the instructions in `done`, the last one first. -/
def Replayed (p : Program) (a : Allocator) (done : List InstrId) (s : RuleState Addresses) : Prop :=
  ∃ fates T, Following p done fates T s ∧ p.replay done.reverse a = .ok fates s.extra.qubits ∧
    p.Booked done fates s.extra.qubits

variable {p : Program} {f : FuncId} {B : BlockId → Prop} {a : Addresses} {done : List InstrId}
  {fates : InstrId → Option Fate} {T : Traces} {s : RuleState Addresses}

/-! ## 3. Visits -/

theorem ruleVisitor_other {v : Value}
    (hv : v.toInstr? = none) : ∃ r, ruleVisitor rules v t = .ok r t := by
  unfold ruleVisitor
  rw [hv]
  exact ⟨_, rfl⟩

theorem comesTo_tryRules {id : InstrId}
    {E : CompileError → Prop} {Q : RuleState Addresses → Prop}
    (h : ComesTo (applyFirst rules id) ⟨t.program, t.extra.scheduled, t.extra.addresses⟩ E
      fun _ => Q) :
    ComesTo (tryRules rules id) t E fun _ u =>
      Q ⟨u.program, u.extra.scheduled, u.extra.addresses⟩ ∧ u.doomed = t.doomed ∧
        u.visited = t.visited := by
  unfold tryRules ComesTo
  dsimp only
  cases hx : applyFirst rules id ⟨t.program, t.extra.scheduled, t.extra.addresses⟩ with
  | ok accepted r => exact ⟨h.of_ok hx, rfl, rfl⟩
  | error e r => exact h.of_error hx

theorem comesTo_ruleVisitor {id : InstrId}
    {E : CompileError → Prop} {Q : RuleState Addresses → Prop}
    (h : ComesTo (applyFirst rules id) ⟨t.program, t.extra.scheduled, t.extra.addresses⟩ E
      fun _ => Q) :
    ComesTo (ruleVisitor rules (.instr id)) t E fun r u => r = some (.instr id) ∧
      Q ⟨u.program, u.extra.scheduled, u.extra.addresses⟩ ∧ u.doomed = t.doomed ∧
        u.visited = t.visited :=
  ComesTo.bind ((comesTo_tryRules h).mono (fun _ he => he) fun _ _ hu => comesTo_of_ok rfl ⟨rfl, hu⟩)

theorem Serving.works (h : Serving p f B) :
    Works p B (p.route f) (ruleVisitor ({} : RuleSettings).rules) (BodyFails p f B a.qubits)
      fun done q x => Replayed p a.qubits done ⟨q, x.scheduled, x.addresses⟩ where
  reads := by
    rintro done q x ⟨fates, T, hfollowing, -⟩
    exact hfollowing.reads
  other _ hv := ruleVisitor_other hv
  instr := by
    rintro done rest b id t ⟨fates, T, hfollowing, hreplay, hbooked⟩ hb hid hnew horder
    have hknown : KnownCall p id := fun k hk => (h.confined.calls b id k hb hid hk).1
    have hdirect := h.direct b id hb hid
    have hsensible := hbooked.sensible (Nat.lt_of_le_of_lt (by
      rw [horder, demand_append, demand_reverse]
      exact Nat.le_add_right _ _) h.demand)
    have hasks : ∀ r, Asks ⟨t.program, t.extra.scheduled, t.extra.addresses⟩ id r ↔
        p.request? fates id = some r := fun r =>
      ⟨hfollowing.asked hid hknown hnew hdirect hsensible,
        hfollowing.asks hid hknown hnew hdirect hsensible⟩
    have hword : done.length + 1 < span 64 := by
      refine Nat.lt_of_le_of_lt ?_ h.words
      refine length_le_of_stand (List.nodup_cons.mpr ⟨hnew, hfollowing.visited⟩) fun i hi => ?_
      rcases List.mem_cons.mp hi with rfl | hi
      · rw [h.sound.mem_instrs.mp hid]
        rfl
      · exact hfollowing.stand i hi
    refine (comesTo_ruleVisitor ((hfollowing.applyFirst hid hnew hword).mono ?_ ?_)).mono
      (fun _ he => he) fun _ _ hu => ⟨hu.1, hu.2.1, hu.2.2.1⟩
    · intro e he
      obtain ⟨cause, q, hcall, rfl⟩ := he.replays hasks
      refine .inl ⟨cause, q, ?_, rfl⟩
      rw [horder]
      exact replay_of_error hreplay hcall
    · rintro - s' ⟨fates', T', hfollowing', hanswered⟩
      have hcall := hanswered.replays hasks
      refine ⟨fates', T', hfollowing', ?_, hbooked.call (called_iff.mp hcall)⟩
      rw [List.reverse_cons, replay_concat hreplay]
      exact hcall
  invoke hb hid hinvoke name := .inr ⟨name, _, _, hb, hid, hinvoke, rfl⟩

/-- The run: trying the rules along a body is a replay. -/
theorem Serving.walk (h : Serving p f B) (ha : Fresh a) {limits : WalkLimits}
    (hdepth : 0 < limits.maxDepth) :
    ComesTo (Walk.walk limits (ruleVisitor ({} : RuleSettings).rules) f)
      { program := p, extra := { addresses := a } } (BodyFails p f B a.qubits) fun _ u =>
        Replayed p a.qubits (p.route f).reverse ⟨u.program, u.extra.scheduled, u.extra.addresses⟩ := by
  obtain ⟨entry, hentry, hb⟩ := h.entry
  obtain ⟨depth, hd⟩ : ∃ depth, limits.maxDepth = depth + 1 := ⟨_, (Nat.succ_pred_eq_of_pos hdepth).symm⟩
  unfold Walk.walk
  rw [hd]
  refine (h.works (a := a)).walkWithin h.confined h.sound ?_ h.live hentry hb List.not_mem_nil
  exact ⟨_, _, .start h.sound ha.results ha.empty, rfl, booked_start ha.qubits ha.none⟩

end Transform

end QirProfile
