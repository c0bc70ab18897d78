import Mathlib.Order.RelClasses
import QirProfile.Proofs.Program.Edits
import QirProfile.Rule.Catalogue

/-!
# What the replacers are made of

The replacers of the catalogue read and edit the program, schedule instructions, and send requests to
the two allocators. Their edits turn no instruction into another one. So what holds of these parts and
of sequences holds of every replacer, and of trying a rule set.
-/

namespace QirProfile

/-! ## 1. The edits of replacers -/

namespace Program

variable {p q r : Program}

/-- The instructions that are there stay what they are. -/
def SameKinds (p q : Program) : Prop :=
  p.instrs.size ≤ q.instrs.size ∧
    ∀ i, i.index < p.instrs.size → (q.instr i).kind = (p.instr i).kind

theorem SameKinds.trans (h₁ : p.SameKinds q) (h₂ : q.SameKinds r) : p.SameKinds r :=
  ⟨Nat.le_trans h₁.1 h₂.1, fun i hi => (h₂.2 i (Nat.lt_of_lt_of_le hi h₁.1)).trans (h₁.2 i hi)⟩

instance : IsPreorder Program SameKinds where
  refl _ := ⟨Nat.le_refl _, fun _ _ => rfl⟩
  trans _ _ _ h₁ h₂ := h₁.trans h₂

theorem sameKinds_replaceUses (p : Program) (old new : Value) :
    p.SameKinds (p.replaceUses old new) :=
  ⟨by simp [Program.replaceUses], fun i _ => kind_replaceUses p old new i⟩

theorem sameKinds_takeName (p : Program) (source target : InstrId) :
    p.SameKinds (p.takeName source target) :=
  ⟨by simp [Program.takeName, setInstrName, updateInstr], fun i _ => kind_takeName p source target i⟩

theorem sameKinds_createInstr (p : Program) (kind : InstrKind) (ty : Ty) (operands : List Value) :
    p.SameKinds (p.createInstr kind ty operands).1 := by
  refine ⟨by simp [createInstr], fun i hi => ?_⟩
  rw [createInstr, instr_push, if_neg (Nat.ne_of_lt hi)]

theorem sameKinds_ensureFunction (p : Program) (name : String) (sig : Signature) :
    p.SameKinds (p.ensureFunction name sig).1 := by
  unfold ensureFunction
  split
  · exact refl_of SameKinds p
  · exact ⟨Nat.le_refl _, fun _ _ => rfl⟩

theorem sameKinds_attach (p : Program) (b : BlockId) (id : InstrId)
    (place : List InstrId → List InstrId) : p.SameKinds (p.attach b id place) := by
  refine ⟨by simp [attach, updateInstr, updateBlock], fun i _ => ?_⟩
  rw [attach, instr_updateInstr]
  split <;> rfl

theorem sameKinds_setInstrName (p : Program) (id : InstrId) (name : Option String) :
    p.SameKinds (p.setInstrName id name) := by
  refine ⟨by simp [setInstrName, updateInstr], fun i _ => ?_⟩
  obtain ⟨n, hn⟩ := instr_setInstrName p id name i
  rw [hn]

theorem sameKinds_insert (place : Place) (draft : Edit.Draft) :
    Always SameKinds (Edit.insert place draft) := by
  refine always_insert sameKinds_createInstr sameKinds_setInstrName (fun _ h => ?_) (fun h => ?_)
    place draft
  · obtain ⟨-, b, n, -, rfl⟩ := insertBeside_ok.mp h
    exact sameKinds_attach _ b _ _
  · obtain ⟨-, -, rfl⟩ := appendInstr_ok.mp h
    exact sameKinds_attach _ _ _ _

end Program

open Program (SameKinds sameKinds_insert)

namespace Replacing

/-! ## 2. Properties of sequences -/

/-- A property that sequences have, and the parts of replacers that make no request to the qubit
    allocator. -/
structure Tidy (P : ∀ {α : Type}, Replacing Addresses α → Prop) : Prop extends Sequential P where
  edit : ∀ {α : Type} {e : Edit α}, Always SameKinds e → P (edit e)
  /-- A change that reaches neither allocator. -/
  modify : ∀ {f : RuleState Addresses → RuleState Addresses},
    (∀ s, (f s).extra.qubits = s.extra.qubits ∧ (f s).extra.results = s.extra.results) →
    (∀ s, SameKinds s.program (f s).program) → P (modify f : Replacing Addresses PUnit)
  allocateResult : ∀ name count, P (onResults (Allocator.allocate name count))

/-- A property that all parts of replacers have. -/
structure Steady (P : ∀ {α : Type}, Replacing Addresses α → Prop) : Prop extends Tidy P where
  allocateQubits : ∀ name count, P (onQubits (Allocator.allocate name count))
  releaseQubits : ∀ address, P (onQubits (Allocator.release address))

/-! ## 3. Replacers that make no request to the qubit allocator -/

namespace Tidy

variable {P : ∀ {α : Type}, Replacing Addresses α → Prop} (hP : Tidy P)

include hP

theorem program : P (Replacing.program : Replacing Addresses Program) :=
  hP.bind hP.get fun _ => hP.pure _

theorem change {f : Program → Program} (hf : ∀ p, SameKinds p (f p)) :
    P (Replacing.change f : Replacing Addresses Unit) :=
  hP.modify (fun _ => ⟨rfl, rfl⟩) fun s => hf s.program

theorem staticAddress (width : Nat) (address : Int) (ty : Ty) :
    P (Replacing.staticAddress width address ty : Replacing Addresses InstrId) :=
  hP.edit fun p => Program.sameKinds_createInstr p _ _ _

theorem ensureFunction (name : String) (sig : Signature) :
    P (Replacing.edit (Edit.make (·.ensureFunction name sig)) : Replacing Addresses FuncId) :=
  hP.edit fun p => Program.sameKinds_ensureFunction p _ _

theorem scheduleDelete (id : InstrId) : P (scheduleDelete id : Replacing Addresses Unit) :=
  hP.modify (fun _ => ⟨rfl, rfl⟩) fun s => refl_of SameKinds s.program

theorem scheduleReplace (old new : InstrId) :
    P (scheduleReplace old new : Replacing Addresses Unit) :=
  hP.modify (fun _ => ⟨rfl, rfl⟩) fun s => refl_of SameKinds s.program

theorem scheduleDeleteOnce (id : InstrId) :
    P (scheduleDeleteOnce id : Replacing Addresses Unit) := by
  unfold Replacing.scheduleDeleteOnce
  refine hP.bind (hP.bind hP.get fun _ => hP.pure _) fun b => ?_
  split
  · exact hP.pure _
  · exact hP.scheduleDelete id

theorem deleteInstr (id : InstrId) (c : Captures) : P (deleteInstr (σ := Addresses) id c) :=
  hP.bind (hP.scheduleDelete id) fun _ => hP.pure _

theorem readResult (negated : Bool) (id : InstrId) (c : Captures) :
    P (readResult (σ := Addresses) negated id c) := by
  unfold Replacing.readResult
  split
  · exact hP.pure _
  refine hP.bind hP.program fun _ => hP.bind (hP.ensureFunction _ _) fun f => ?_
  refine hP.bind hP.program fun _ => hP.bind (hP.edit (sameKinds_insert _ _)) fun read => ?_
  have hrest : ∀ answer : InstrId, P (do
      Replacing.change fun p => (p.takeName id answer).replaceUses (.instr id) (.instr answer)
      Replacing.scheduleDelete id
      (c.instr? "one").forM fun canonical => do
        if ← allUsersScheduled canonical then Replacing.scheduleDeleteOnce canonical
      return true : Replacing Addresses Bool) := by
    intro answer
    refine hP.bind (hP.change fun p => (p.sameKinds_takeName id answer).trans
      (Program.sameKinds_replaceUses _ _ _)) fun _ => ?_
    refine hP.bind (hP.scheduleDelete id) fun _ => ?_
    refine hP.bind (hP.optionForM (fun canonical => ?_) _) fun _ => hP.pure _
    refine hP.bind (hP.bind hP.get fun _ => hP.pure _) fun _ => ?_
    split
    · exact hP.scheduleDeleteOnce canonical
    · exact hP.pure _
  split
  · exact hP.bind hP.program fun _ => hP.bind (hP.edit (sameKinds_insert _ _)) hrest
  · exact hrest read

theorem resolveSize (id : InstrId) (c : Captures) : P (resolveSize (σ := Addresses) id c) := by
  unfold Replacing.resolveSize
  split
  · refine hP.bind (hP.change fun p => p.sameKinds_replaceUses _ _) fun _ => ?_
    exact hP.bind (hP.scheduleDelete id) fun _ => hP.pure _
  · exact hP.pure _

theorem accessElement (width : Nat) (id : InstrId) (c : Captures) : P (accessElement width id c) := by
  unfold Replacing.accessElement
  refine hP.bind hP.program fun p => ?_
  split
  · refine hP.bind (hP.staticAddress _ _ _) fun _ => hP.bind (hP.scheduleReplace id _) fun _ => ?_
    refine hP.bind (hP.optionForM hP.scheduleDeleteOnce _) fun _ => ?_
    exact hP.bind (hP.optionForM hP.scheduleDeleteOnce _) fun _ => hP.pure _
  · exact hP.pure _

theorem measure (width : Nat) (id : InstrId) (c : Captures) : P (measure width id c) := by
  unfold Replacing.measure
  refine hP.bind hP.program fun p => ?_
  split
  · exact hP.pure _
  dsimp only
  split
  · exact hP.pure _
  refine hP.bind (hP.allocateResult _ _) fun start => ?_
  refine hP.bind (hP.staticAddress _ _ _) fun address => ?_
  refine hP.bind hP.program fun _ => hP.bind (hP.ensureFunction _ _) fun f => ?_
  refine hP.bind hP.program fun _ => hP.bind (hP.edit (sameKinds_insert _ _)) fun _ => ?_
  exact hP.bind (hP.scheduleReplace id _) fun _ => hP.pure _

end Tidy

/-! ## 4. Trying rules -/

namespace Steady

variable {P : ∀ {α : Type}, Replacing Addresses α → Prop} (hP : Steady P)

include hP

theorem substituteAddress (id address : InstrId) :
    P (substituteAddress id address : Replacing Addresses Unit) :=
  hP.bind (hP.change fun p => p.sameKinds_replaceUses _ _) fun _ => hP.scheduleReplace id address

theorem allocateQubit (width : Nat) (id : InstrId) (c : Captures) : P (allocateQubit width id c) := by
  unfold Replacing.allocateQubit
  refine hP.bind hP.program fun p => ?_
  dsimp only
  split
  · exact hP.pure _
  refine hP.bind (hP.allocateQubits _ _) fun start => ?_
  refine hP.bind (hP.staticAddress _ _ _) fun address => ?_
  exact hP.bind (hP.substituteAddress id address) fun _ => hP.pure _

theorem allocateArray (width : Nat) (id : InstrId) (c : Captures) : P (allocateArray width id c) := by
  unfold Replacing.allocateArray
  refine hP.bind hP.program fun p => ?_
  dsimp only
  split
  · exact hP.pure _
  split
  · exact hP.pure _
  refine hP.bind (hP.allocateQubits _ _) fun start => ?_
  refine hP.bind (hP.staticAddress _ _ _) fun address => ?_
  have hrest : ∀ u : PUnit, P (do
      Replacing.substituteAddress id address
      return true : Replacing Addresses Bool) := fun _ =>
    hP.bind (hP.substituteAddress id address) fun _ => hP.pure _
  split
  · exact hP.bind (hP.modify (fun _ => ⟨rfl, rfl⟩) fun s => refl_of SameKinds s.program) hrest
  · exact hrest ⟨⟩

theorem releaseQubit (id : InstrId) (c : Captures) : P (releaseQubit id c) := by
  unfold Replacing.releaseQubit
  split
  · exact hP.pure _
  split
  · exact hP.pure _
  refine hP.bind (hP.releaseQubits _) fun _ => ?_
  exact hP.bind (hP.scheduleDelete id) fun _ => hP.pure _

theorem releaseArray (id : InstrId) (c : Captures) : P (releaseArray id c) := by
  unfold Replacing.releaseArray
  refine hP.bind hP.get fun s => ?_
  dsimp only
  split
  · exact hP.deleteInstr id c
  · exact hP.releaseQubit id c

end Steady

/-- Whatever replacer a rule has, it has a property. -/
def EachReplacer {σ : Type} (P : Replacer σ → Prop) (r : Rule σ) : Prop :=
  ∀ f, r.replacer = some f → P f

theorem eachReplacer_of {σ : Type} {P : Replacer σ → Prop} {q : Pattern} {f : Replacer σ} (hf : P f) :
    EachReplacer P (.of q f) := by
  rintro g ⟨⟩
  exact hf

/-- A property of all replacers of the catalogue. -/
structure Catalogued (width : Nat) (P : Replacer Addresses → Prop) : Prop where
  deleteInstr : P deleteInstr
  readResult : ∀ negated, P (readResult negated)
  allocateArray : P (allocateArray width)
  accessElement : P (accessElement width)
  releaseArray : P releaseArray
  allocateQubit : P (allocateQubit width)
  releaseQubit : P releaseQubit
  measure : P (measure width)
  resolveSize : P resolveSize

theorem Catalogued.group {width : Nat} {P : Replacer Addresses → Prop} (hP : Catalogued width P)
    (g : RuleGroup) : ∀ r ∈ g.rules width, EachReplacer P r := by
  have hremovals : ∀ names : List String, ∀ r ∈ names.map removeCalls, EachReplacer P r := by
    intro names r hr
    obtain ⟨name, -, rfl⟩ := List.mem_map.mp hr
    exact eachReplacer_of hP.deleteInstr
  have hreads : ∀ canonical negated, ∀ r ∈ resultReadRules canonical negated, EachReplacer P r := by
    intro canonical negated
    simp only [resultReadRules, List.forall_mem_cons]
    exact ⟨eachReplacer_of (hP.readResult _), eachReplacer_of (hP.readResult _), List.forall_mem_nil _⟩
  cases g with
  | referenceCounting | aliasCounting | stringSupport => exact hremovals _
  | resultOne | resultZero => exact hreads _ _
  | qubitArrays =>
    simp only [RuleGroup.rules, qubitArrayRules, List.forall_mem_cons]
    exact ⟨eachReplacer_of hP.allocateArray, eachReplacer_of hP.accessElement,
      eachReplacer_of hP.releaseArray, List.forall_mem_nil _⟩
  | qubits =>
    simp only [RuleGroup.rules, qubitRules, List.forall_mem_cons]
    exact ⟨eachReplacer_of hP.allocateQubit, eachReplacer_of hP.releaseQubit,
      eachReplacer_of hP.deleteInstr, List.forall_mem_nil _⟩
  | results => exact List.forall_mem_singleton.mpr (eachReplacer_of hP.measure)
  | arraySizes => exact List.forall_mem_singleton.mpr (eachReplacer_of hP.resolveSize)

theorem Catalogued.rules {settings : RuleSettings} {P : Replacer Addresses → Prop}
    (hP : Catalogued settings.integerWidth P) : ∀ r ∈ settings.rules, EachReplacer P r := by
  intro r hr
  obtain ⟨g, -, hr⟩ := List.mem_flatMap.mp hr
  exact hP.group g r hr

section

variable {P : ∀ {α : Type}, Replacing Addresses α → Prop}

theorem Steady.catalogued (hP : Steady P) (width : Nat) :
    Catalogued width fun f => ∀ id c, P (f id c) where
  deleteInstr := hP.deleteInstr
  readResult := hP.readResult
  allocateArray := hP.allocateArray width
  accessElement := hP.accessElement width
  releaseArray := hP.releaseArray
  allocateQubit := hP.allocateQubit width
  releaseQubit := hP.releaseQubit
  measure := hP.measure width
  resolveSize := hP.resolveSize

theorem Tidy.firstAccepting (hP : Tidy P) {rules : List (Rule Addresses)}
    (hrules : ∀ r ∈ rules, EachReplacer (fun f => ∀ id c, P (f id c)) r) (id : InstrId) :
    P (firstAccepting id rules) := by
  induction rules with
  | nil => exact hP.pure _
  | cons r rest ih =>
    have hrest := ih fun q hq => hrules q (List.mem_cons_of_mem r hq)
    have hoffer : ∀ c, P (offer r id c) := by
      intro c
      unfold offer
      split
      · exact hP.pure _
      · rename_i f hf
        refine hP.bind hP.get fun s => hP.bind (hrules r List.mem_cons_self f hf id c) fun b => ?_
        split
        · exact hP.pure _
        · exact hP.bind (hP.modify (fun _ => ⟨rfl, rfl⟩) fun s => refl_of SameKinds s.program)
            fun _ => hP.pure _
    unfold Replacing.firstAccepting
    refine hP.bind hP.program fun p => ?_
    split
    · exact hrest
    · refine hP.bind (hoffer _) fun b => ?_
      split
      · exact hP.pure _
      · exact hrest

/-- What holds of the parts of replacers holds of a rule set. -/
theorem Steady.applyFirst (hP : Steady P) (settings : RuleSettings) (id : InstrId) :
    P (applyFirst settings.rules id) := by
  unfold Replacing.applyFirst
  refine hP.bind hP.program fun p => ?_
  split
  · exact hP.pure _
  · exact hP.firstAccepting (hP.catalogued _).rules id

end

theorem always_onQubits {α : Type} {R : Program → Program → Prop} [IsPreorder Program R]
    (f : Allocating α) : Always (Order.Preimage RuleState.program R) (onQubits f) := by
  intro s
  unfold behind onQubits
  cases f s.extra.qubits <;> exact refl_of R s.program

theorem steady_sameKinds :
    Steady (fun {α} => Always (α := α) (Order.Preimage RuleState.program SameKinds)) where
  toSequential := sequential_always
  edit {_ e} he s := by
    have hkept := he s.program
    unfold behind at hkept
    unfold behind Replacing.edit
    cases h : e s.program <;> rw [h] at hkept <;> exact hkept
  modify _ hprogram s := hprogram s
  allocateResult name count s := by
    unfold behind onResults
    cases Allocator.allocate name count s.extra.results <;> exact refl_of SameKinds s.program
  allocateQubits _ _ := always_onQubits _
  releaseQubits _ := always_onQubits _

/-! ## 6. Rules one by one -/

section

variable {σ : Type} {r : Rule σ} {rules : List (Rule σ)} {g : Replacer σ} {s s' : RuleState σ}
  {id : InstrId} {captures : Captures}

theorem firstAccepting_of_none (h : match? r s.program id = none) :
    firstAccepting id (r :: rules) s = firstAccepting id rules s := by
  have hprogram : (program : Replacing σ Program) s = .ok s.program s := rfl
  rw [firstAccepting, bind_of_ok hprogram, h]

theorem offer_run {accepted : Bool} (hg : r.replacer = some g)
    (h : g id captures s = .ok accepted s') : offer r id captures s =
      .ok accepted (if accepted then s' else
        { s' with scheduled := s'.scheduled.take s.scheduled.length }) := by
  unfold offer
  rw [hg]
  dsimp only
  rw [get_bind, bind_of_ok h]
  cases accepted <;> rfl

theorem firstAccepting_of_true (hmatch : match? r s.program id = some captures)
    (hg : r.replacer = some g) (h : g id captures s = .ok true s') :
    firstAccepting id (r :: rules) s = .ok true s' := by
  have hprogram : (program : Replacing σ Program) s = .ok s.program s := rfl
  rw [firstAccepting, bind_of_ok hprogram, hmatch]
  dsimp only
  rw [bind_of_ok (offer_run hg h)]
  rfl

theorem firstAccepting_of_false (hmatch : match? r s.program id = some captures)
    (hg : r.replacer = some g) (h : g id captures s = .ok false s) :
    firstAccepting id (r :: rules) s = firstAccepting id rules s := by
  have hprogram : (program : Replacing σ Program) s = .ok s.program s := rfl
  rw [firstAccepting, bind_of_ok hprogram, hmatch]
  dsimp only
  rw [bind_of_ok (offer_run hg h), if_neg Bool.false_ne_true, List.take_length]
  rfl

theorem firstAccepting_of_error {e : CompileError} (hmatch : match? r s.program id = some captures)
    (hg : r.replacer = some g) (h : g id captures s = .error e s') :
    firstAccepting id (r :: rules) s = .error e s' := by
  have hprogram : (program : Replacing σ Program) s = .ok s.program s := rfl
  have hoffer : offer r id captures s = .error e s' := by
    unfold offer
    rw [hg]
    dsimp only
    rw [get_bind, bind_of_error h]
  rw [firstAccepting, bind_of_ok hprogram, hmatch]
  dsimp only
  rw [bind_of_error hoffer]

end

end Replacing

end QirProfile
