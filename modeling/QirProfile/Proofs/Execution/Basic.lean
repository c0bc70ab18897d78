import Mathlib.Logic.Function.Iterate
import QirProfile.Proofs.Program.Readings

/-!
# Running a function

A function is run block by block. The phis of a block read the registers as they stood when the block
was entered; the other instructions read and write them in order, up to the first terminator, which
says where control goes on. What a run depends on besides the program is its `World`: what arguments
and constants stand for, and what each operation answers, given all that has been done before.

A run leaves a history: every instruction that was done, with the values of its operands, and every
phi with the value it received. Branches leave no trace in it. An invoke counts as a call that
returns.
-/

namespace QirProfile

/-! ## 1. Worlds -/

/-- An operation that was done, with the values of its operands. -/
structure Deed (V : Type) where
  kind : InstrKind
  ty : Ty
  operands : List V

/-- The values that instructions have given. -/
abbrev Registers (V : Type) := InstrId → V

/-- What a run depends on besides the program: the values of arguments and constants, the test of a
    condition, and the answers of operations. An answer may depend on all that has been done, so that
    every choice of results for calls and loads is the answer of some world. -/
structure World (V : Type) where
  /-- What is read before it has been given, and where nothing is defined. -/
  undefined : V
  argument : FuncId → Nat → V
  /-- The address of a node, or a constant without parts. -/
  constant : Value → V
  array : Ty → List V → V
  struct : Ty → List V → V
  cast : CastOp → V → Ty → V
  gep : Bool → Ty → V → List V → Ty → V
  /-- Whether a branch on this value goes to its true destination. -/
  truth : V → Bool
  /-- Whether a switch on the second value goes to the case of the first one. -/
  same : V → V → Bool
  /-- What the last of the operations done so far gives. -/
  answer : List (Deed V) → V
  truth_int : ∀ bits n, truth (constant (.int bits n)) = decide (n ≠ 0)

namespace World

variable {V : Type} (w : World V)

mutual

/-- The value of an operand. -/
def eval (R : Registers V) : Value → V
  | .instr id => R id
  | .arg f index => w.argument f index
  | .undef _ => w.undefined
  | .array ty vs => w.array ty (evalAll R vs)
  | .struct ty vs => w.struct ty (evalAll R vs)
  | .cast op v target => w.cast op (eval R v) target
  | .gep inbounds source base vs ty => w.gep inbounds source (eval R base) (evalAll R vs) ty
  | v => w.constant v

/-- The values of operands. -/
def evalAll (R : Registers V) : List Value → List V
  | [] => []
  | v :: vs => eval R v :: evalAll R vs

end

mutual

theorem eval_substitute (R : Registers V) (a : InstrId) (new : Value) :
    (v : Value) → w.eval R (.substitute (.instr a) new v) =
      w.eval (Function.update R a (w.eval R new)) v
  | .instr b => by
    unfold Value.substitute
    by_cases hb : b = a
    · rw [if_pos (congrArg Value.instr hb), eval, hb, Function.update_self]
    · rw [if_neg fun h => hb (Value.instr.inj h), eval, eval, Function.update_of_ne hb]
  | .array ty vs => by
    rw [Value.substitute, if_neg fun h => Value.noConfusion h, eval, eval, evalAll_substitute]
  | .struct ty vs => by
    rw [Value.substitute, if_neg fun h => Value.noConfusion h, eval, eval, evalAll_substitute]
  | .cast op v target => by
    rw [Value.substitute, if_neg fun h => Value.noConfusion h, eval, eval, eval_substitute R a new v]
  | .gep inbounds source base vs ty => by
    rw [Value.substitute, if_neg fun h => Value.noConfusion h, eval, eval,
      eval_substitute R a new base, evalAll_substitute]
  | .arg _ _ | .block _ | .func _ | .global _ | .int _ _ | .float _ _ | .null _ | .undef _
  | .zero _ | .bytes _ => by simp [Value.substitute, eval]

theorem evalAll_substitute (R : Registers V) (a : InstrId) (new : Value) :
    (vs : List Value) → w.evalAll R (Value.substituteAll (.instr a) new vs) =
      w.evalAll (Function.update R a (w.eval R new)) vs
  | [] => rfl
  | v :: vs => by
    rw [Value.substituteAll, evalAll, evalAll, eval_substitute R a new v,
      evalAll_substitute R a new vs]

end

mutual

theorem eval_congr {R R' : Registers V} :
    (v : Value) → (∀ a, Value.mentions (.instr a) v = true → R' a = R a) → w.eval R' v = w.eval R v
  | .instr a, h => h a (Value.mentions_self _)
  | .array ty vs, h => by
    rw [eval, eval, evalAll_congr vs fun a ha => h a (by simp [Value.mentions, ha])]
  | .struct ty vs, h => by
    rw [eval, eval, evalAll_congr vs fun a ha => h a (by simp [Value.mentions, ha])]
  | .cast op v target, h => by
    rw [eval, eval, eval_congr v fun a ha => h a (by simp [Value.mentions, ha])]
  | .gep inbounds source base vs ty, h => by
    rw [eval, eval, eval_congr base fun a ha => h a (by simp [Value.mentions, ha]),
      evalAll_congr vs fun a ha => h a (by simp [Value.mentions, ha])]
  | .arg _ _, _ | .block _, _ | .func _, _ | .global _, _ | .int _ _, _ | .float _ _, _
  | .null _, _ | .undef _, _ | .zero _, _ | .bytes _, _ => by simp [eval]

theorem evalAll_congr {R R' : Registers V} :
    (vs : List Value) → (∀ a, Value.mentionsAny (.instr a) vs = true → R' a = R a) →
      w.evalAll R' vs = w.evalAll R vs
  | [], _ => rfl
  | v :: vs, h => by
    rw [evalAll, evalAll, eval_congr v fun a ha => h a (by simp [Value.mentionsAny, ha]),
      evalAll_congr vs fun a ha => h a (by simp [Value.mentionsAny, ha])]

end

end World

/-! ## 2. What one instruction does -/

namespace Instr

variable {V : Type} (w : World V) (R : Registers V)

/-- What an instruction does, as the world sees it. An invoke is a call, and what type a call claims
    for its result does not show. -/
def deed (i : Instr) : Deed V :=
  match i.kind with
  | .invoke => ⟨.call .none, .void, (i.arguments ++ i.callee?.toList).map (w.eval R)⟩
  | .call marker => ⟨.call marker, .void, i.operands.map (w.eval R)⟩
  | kind => ⟨kind, i.ty, i.operands.map (w.eval R)⟩

/-- What a phi receives when its block is entered from `source`. -/
def received (source : Option BlockId) (i : Instr) : V :=
  ((source.bind fun b => (i.operands.zip i.phiBlocks).find? (·.2 == b)).map fun entry =>
    w.eval R entry.1).getD w.undefined

/-- Where a branch goes. -/
def branchTo : List Value → Option BlockId
  | [target] => target.toBlock?
  | [cond, ifFalse, ifTrue] =>
    if w.truth (w.eval R cond) then ifTrue.toBlock? else ifFalse.toBlock?
  | _ => none

/-- The first case of a switch whose key is the same as `v`. -/
def caseOf (v : V) (other : Option BlockId) : List Value → Option BlockId
  | key :: target :: rest =>
    if w.same (w.eval R key) v then target.toBlock? else caseOf v other rest
  | _ => other

/-- Where a switch goes. -/
def switchTo : List Value → Option BlockId
  | cond :: other :: cases => caseOf w R (w.eval R cond) other.toBlock? cases
  | _ => none

/-- Where control goes on after a terminator. An invoke returns normally. -/
def goesTo (i : Instr) : Option BlockId :=
  match i.kind with
  | .br => branchTo w R i.operands
  | .switch => switchTo w R i.operands
  | .invoke => i.invokeDestinations?.map (·.1)
  | _ => none

end Instr

/-! ## 3. Runs -/

/-- The state of a run between two blocks. -/
structure RunState (V : Type) where
  registers : Registers V
  /-- What has been done, by which instruction. -/
  history : List (InstrId × Deed V) := []
  /-- The block that control comes from. -/
  source : Option BlockId := none
  /-- The block that is entered next; none when the run has ended. -/
  next : Option BlockId

namespace RunState

variable {V : Type}

/-- An instruction has been done and gives a value. -/
def note (s : RunState V) (id : InstrId) (d : Deed V) (v : V) : RunState V :=
  { s with registers := Function.update s.registers id v, history := s.history ++ [(id, d)] }

/-- Does one instruction. Phis read the registers `before`. -/
def act (w : World V) (before : Registers V) (id : InstrId) (i : Instr) (s : RunState V) :
    RunState V :=
  match i.kind with
  | .br => s
  | .phi _ =>
    let v := i.received w before s.source
    s.note id ⟨.phi [], i.ty, [v]⟩ v
  | _ =>
    let d := i.deed w s.registers
    s.note id d (w.answer (s.history.map (·.2) ++ [d]))

end RunState

namespace Program

variable {V : Type}

/-- The instructions of a block before its first terminator. -/
def straight (p : Program) (b : BlockId) : List InstrId :=
  (p.block b).instrs.takeWhile fun id => !(p.instr id).isTerminator

/-- The first terminator of a block. -/
def exit? (p : Program) (b : BlockId) : Option InstrId :=
  (p.block b).instrs.find? fun id => (p.instr id).isTerminator

/-- Does instructions in order. -/
def actAll (p : Program) (w : World V) (before : Registers V) (s : RunState V)
    (ids : List InstrId) : RunState V :=
  ids.foldl (fun t id => t.act w before id (p.instr id)) s

/-- Leaves a block by its first terminator. A block without one ends the run. -/
def leave (p : Program) (w : World V) (before : Registers V) (b : BlockId) (s : RunState V) :
    RunState V :=
  match p.exit? b with
  | none => { s with source := some b, next := none }
  | some e =>
    { s.act w before e (p.instr e) with
      source := some b, next := (p.instr e).goesTo w s.registers }

/-- Runs the block that is entered next. -/
def step (p : Program) (w : World V) (s : RunState V) : RunState V :=
  match s.next with
  | none => s
  | some b => p.leave w s.registers b (p.actAll w s.registers s (p.straight b))

/-- The state in which a function is entered. -/
def start (p : Program) (w : World V) (f : FuncId) : RunState V where
  registers := fun _ => w.undefined
  next := (p.func f).entryBlock?

/-- Runs a function for as many blocks as `n` says, or until it ends. -/
def run (p : Program) (w : World V) (f : FuncId) (n : Nat) : RunState V :=
  (p.step w)^[n] (p.start w f)

/-- The second program does what the first one does when `f` is run: in every world and for any
    number of blocks it has done the same with the same values, each instruction under its new handle,
    and control stands at the same block. -/
def Mirrors (σ : InstrId → InstrId) (f : FuncId) (p q : Program) : Prop :=
  ∀ (V : Type) (w : World V) (n : Nat),
    (q.run w f n).history = (p.run w f n).history.map (Prod.map σ id) ∧
      (q.run w f n).next = (p.run w f n).next

variable {p q r : Program} {f : FuncId} {σ τ : InstrId → InstrId}

theorem Mirrors.refl (p : Program) (f : FuncId) : Mirrors id f p p := by
  intro V w n
  rw [Prod.map_id, List.map_id]
  exact ⟨rfl, rfl⟩

theorem Mirrors.trans (h₁ : Mirrors σ f p q) (h₂ : Mirrors τ f q r) :
    Mirrors (τ ∘ σ) f p r := by
  intro V w n
  obtain ⟨hhistory, hnext⟩ := h₁ V w n
  obtain ⟨hhistory', hnext'⟩ := h₂ V w n
  refine ⟨?_, hnext'.trans hnext⟩
  rw [hhistory', hhistory, List.map_map, Prod.map_comp_map, Function.id_comp]

/-! ## 4. Simulation -/

/-- The state of a run and the state of its mirror. Registers are related by `E`. -/
structure Follows (σ : InstrId → InstrId) (E : Registers V → Registers V → Prop)
    (s t : RunState V) : Prop where
  history : t.history = s.history.map (Prod.map σ id)
  source : t.source = s.source
  next : t.next = s.next
  registers : E s.registers t.registers

/-- Two instructions do the same when their block is entered from `source`. -/
structure Alike (w : World V) (E : Registers V → Registers V → Prop) (source : Option BlockId)
    (i j : Instr) : Prop where
  branch : j.kind = .br ↔ i.kind = .br
  phi : j.isPhi = i.isPhi
  ty : i.isPhi = true → j.ty = i.ty
  deed : i.kind ≠ .br → i.isPhi = false → ∀ R R', E R R' → j.deed w R' = i.deed w R
  received : ∀ R R', E R R' → j.received w R' source = i.received w R source

/-- Related registers stay related when an instruction and its mirror give the same value. -/
def Settable (σ : InstrId → InstrId) (E : Registers V → Registers V → Prop) (a : InstrId) : Prop :=
  ∀ R R' v, E R R' → E (Function.update R a v) (Function.update R' (σ a) v)

end Program

namespace RunState

variable {V : Type} {w : World V} {before : Registers V} {id : InstrId} {i : Instr}
  {s : RunState V}

theorem act_branch (h : i.kind = .br) : s.act w before id i = s := by
  unfold act
  rw [h]

theorem act_phi (h : i.isPhi = true) : s.act w before id i =
    s.note id ⟨.phi [], i.ty, [i.received w before s.source]⟩ (i.received w before s.source) := by
  obtain ⟨blocks, hkind⟩ := Instr.isPhi_iff.mp h
  unfold act
  rw [hkind]

theorem act_plain (hbranch : i.kind ≠ .br) (hphi : i.isPhi = false) : s.act w before id i =
    s.note id (i.deed w s.registers)
      (w.answer (s.history.map (·.2) ++ [i.deed w s.registers])) := by
  unfold act
  split
  · exact absurd ‹_› hbranch
  · rename_i blocks hkind
    exact absurd (Instr.isPhi_iff.mpr ⟨blocks, hkind⟩) (Bool.eq_false_iff.mp hphi)
  · rfl

theorem source_act : (s.act w before id i).source = s.source := by
  unfold act
  split <;> rfl

end RunState

namespace Program

variable {V : Type} {w : World V} {σ : InstrId → InstrId}
  {E : Registers V → Registers V → Prop} {p q : Program} {s t : RunState V}
  {before before' : Registers V} {b : BlockId}

theorem Follows.note {a : InstrId} {d : Deed V} {v : V} (h : Follows σ E s t)
    (ha : Settable σ E a) : Follows σ E (s.note a d v) (t.note (σ a) d v) where
  history := by
    rw [RunState.note, RunState.note, h.history, List.map_append]
    rfl
  source := h.source
  next := h.next
  registers := ha _ _ _ h.registers

theorem Follows.act {a a' : InstrId} {i j : Instr} (h : Follows σ E s t)
    (hij : Alike w E s.source i j) (hbefore : E before before')
    (ha : i.kind = .br ∨ a' = σ a ∧ Settable σ E a) :
    Follows σ E (s.act w before a i) (t.act w before' a' j) := by
  by_cases hbranch : i.kind = .br
  · rw [RunState.act_branch hbranch, RunState.act_branch (hij.branch.mpr hbranch)]
    exact h
  obtain ⟨rfl, hset⟩ := ha.resolve_left hbranch
  cases hphi : i.isPhi with
  | true =>
    rw [RunState.act_phi hphi, RunState.act_phi (hij.phi.trans hphi), hij.ty hphi, h.source,
      hij.received _ _ hbefore]
    exact h.note hset
  | false =>
    have hanswers : t.history.map (·.2) = s.history.map (·.2) := by
      rw [h.history, List.map_map]
      rfl
    rw [RunState.act_plain hbranch hphi,
      RunState.act_plain (hij.branch.not.mpr hbranch) (hij.phi.trans hphi),
      hij.deed hbranch hphi _ _ h.registers, hanswers]
    exact h.note hset

theorem source_actAll (p : Program) (w : World V) (before : Registers V) (s : RunState V)
    (ids : List InstrId) : (p.actAll w before s ids).source = s.source := by
  unfold actAll
  induction ids generalizing s with
  | nil => rfl
  | cons a ids ih => rw [List.foldl_cons, ih, RunState.source_act]

theorem Follows.actAll {ids : List InstrId} (h : Follows σ E s t)
    (halike : ∀ a ∈ ids, Alike w E s.source (p.instr a) (q.instr (σ a)))
    (hset : ∀ a ∈ ids, Settable σ E a) (hbefore : E before before') :
    Follows σ E (p.actAll w before s ids) (q.actAll w before' t (ids.map σ)) := by
  unfold Program.actAll
  induction ids generalizing s t with
  | nil => exact h
  | cons a ids ih =>
    refine ih (h.act (halike a List.mem_cons_self) hbefore
      (.inr ⟨rfl, hset a List.mem_cons_self⟩)) (fun c hc => ?_)
      fun c hc => hset c (List.mem_cons_of_mem _ hc)
    rw [RunState.source_act]
    exact halike c (List.mem_cons_of_mem _ hc)

/-- A block of a program and the same block of its mirror, when it is entered from `source`. -/
structure LinesUp (w : World V) (σ : InstrId → InstrId) (E : Registers V → Registers V → Prop)
    (source : Option BlockId) (p q : Program) (b : BlockId) : Prop where
  straight : q.straight b = (p.straight b).map σ
  alike : ∀ a ∈ p.straight b, Alike w E source (p.instr a) (q.instr (σ a))
  settable : ∀ a ∈ p.straight b, Settable σ E a
  ends : p.exit? b = none → q.exit? b = none
  exits : ∀ e, p.exit? b = some e → ∃ e', q.exit? b = some e' ∧
    Alike w E source (p.instr e) (q.instr e') ∧
    (∀ R R', E R R' → (q.instr e').goesTo w R' = (p.instr e).goesTo w R) ∧
    ((p.instr e).kind = .br ∨ e' = σ e ∧ Settable σ E e)

theorem Follows.leave (h : Follows σ E s t) (hbefore : E before before')
    (hends : p.exit? b = none → q.exit? b = none)
    (hexits : ∀ e, p.exit? b = some e → ∃ e', q.exit? b = some e' ∧
      Alike w E s.source (p.instr e) (q.instr e') ∧
      (∀ R R', E R R' → (q.instr e').goesTo w R' = (p.instr e).goesTo w R) ∧
      ((p.instr e).kind = .br ∨ e' = σ e ∧ Settable σ E e)) :
    Follows σ E (p.leave w before b s) (q.leave w before' b t) := by
  cases hexit : p.exit? b with
  | none =>
    unfold Program.leave
    rw [hexit, hends hexit]
    exact ⟨h.history, rfl, rfl, h.registers⟩
  | some e =>
    obtain ⟨e', hexit', hij, hgoes, ha⟩ := hexits e hexit
    have hacted := h.act hij hbefore ha
    unfold Program.leave
    rw [hexit, hexit']
    exact ⟨hacted.history, rfl, hgoes _ _ h.registers, hacted.registers⟩

theorem LinesUp.step (h : LinesUp w σ E s.source p q b) (hs : Follows σ E s t)
    (hb : s.next = some b) : Follows σ E (p.step w s) (q.step w t) := by
  have hall : Follows σ E (p.actAll w s.registers s (p.straight b))
      (q.actAll w t.registers t (q.straight b)) := by
    rw [h.straight]
    exact hs.actAll h.alike h.settable hs.registers
  unfold Program.step
  rw [hs.next, hb]
  refine hall.leave hs.registers h.ends ?_
  rw [source_actAll]
  exact h.exits

/-- A relation that every step keeps makes a mirror. -/
theorem mirrors_of_step {f : FuncId}
    (h : ∀ {V : Type} (w : World V), ∃ K : RunState V → RunState V → Prop,
      K (p.start w f) (q.start w f) ∧ (∀ s t, K s t → K (p.step w s) (q.step w t)) ∧
        ∀ s t, K s t → t.history = s.history.map (Prod.map σ id) ∧ t.next = s.next) :
    Mirrors σ f p q := by
  intro V w n
  obtain ⟨K, hstart, hstep, hK⟩ := h w
  refine hK _ _ ?_
  induction n with
  | zero => exact hstart
  | succ n ih =>
    rw [run, run, Function.iterate_succ_apply', Function.iterate_succ_apply']
    exact hstep _ _ ih

theorem mirrors_of_linesUp {f : FuncId} (hfunc : q.func f = p.func f)
    (h : ∀ {V : Type} (w : World V), ∃ E : Registers V → Registers V → Prop,
      E (fun _ => w.undefined) (fun _ => w.undefined) ∧
        ∀ source b, LinesUp w σ E source p q b) : Mirrors σ f p q := by
  refine mirrors_of_step fun w => ?_
  obtain ⟨E, hstart, hlines⟩ := h w
  refine ⟨Follows σ E, ⟨rfl, rfl, by rw [start, start, hfunc], hstart⟩, fun s t hs => ?_,
    fun s t hs => ⟨hs.history, hs.next⟩⟩
  cases hnext : s.next with
  | none =>
    unfold Program.step
    rw [hs.next, hnext]
    exact hs
  | some b => exact (hlines s.source b).step hs hnext

end Program

end QirProfile
