import Mathlib.Data.List.Induction
import QirProfile.Pass
import QirProfile.Proofs.Program.Edits
import QirProfile.Verify

/-!
# What a validated program calls

A report counts by names: opcodes, declared functions that are called, defined functions that are
called. Only a call whose callee is itself a function has a name to be counted under; a callee that
is a constant expression or the value of an instruction or argument has none.
-/

namespace QirProfile

open Program

/-! ## 1. Tallies -/

namespace Tally

/-- The names that are counted. -/
def names (t : Tally) : List String := t.map (·.1)

theorem mem_names_add {name k : String} (t : Tally) :
    k ∈ names (t.add name) ↔ k ∈ names t ∨ k = name := by
  induction t with
  | nil => simp [add, names]
  | cons entry rest ih =>
    obtain ⟨key, n⟩ := entry
    unfold add
    split
    · simp [names, or_comm]
    · split
      · rename_i heq
        subst heq
        simp only [names, List.map_cons, List.mem_cons]
        tauto
      · simp only [names, List.map_cons, List.mem_cons] at ih ⊢
        rw [ih, or_assoc]

end Tally

namespace ValidationReport

variable {p : Program} {r : ValidationReport} {ids : List InstrId}

theorem notAllowed_eq_nil {t : Tally} {allowed : List String} :
    notAllowed t allowed = [] ↔ ∀ name ∈ t.names, name ∈ allowed := by
  simp [notAllowed, Tally.names, List.filter_eq_nil_iff]

/-! ## 2. What a report counts -/

/-- Whether an instruction calls, as a callee on its own, a function of this name that is declared
    only, or defined. -/
def CallsNamed (p : Program) (declared : Bool) (name : String) (i : InstrId) : Prop :=
  ∃ g, (p.instr i).calledFunction? = some g ∧ (p.func g).isDeclaration = declared ∧
    (p.func g).name = name

/-- The names of a report are those that some instructions have. -/
structure Counted (p : Program) (ids : List InstrId) (r : ValidationReport) : Prop where
  opcodes : ∀ name, name ∈ r.opcodes.names ↔ ∃ i ∈ ids, (p.instr i).kind.opcode = name
  external : ∀ name, name ∈ r.externalCalls.names ↔ ∃ i ∈ ids, CallsNamed p true name i
  internal : ∀ name, name ∈ r.internalCalls.names ↔ ∃ i ∈ ids, CallsNamed p false name i

theorem exists_mem_snoc {P : InstrId → Prop} {i : InstrId} :
    (∃ j ∈ ids ++ [i], P j) ↔ (∃ j ∈ ids, P j) ∨ P i := by
  simp only [List.mem_append, List.mem_singleton, or_and_right, exists_or, exists_eq_left]

theorem countInstr_of_none {i : InstrId} (hcall : (p.instr i).calledFunction? = none) :
    r.countInstr p i = { r with opcodes := r.opcodes.add (p.instr i).kind.opcode } := by
  simp only [countInstr, hcall, Option.elim]

theorem countInstr_of_some {i : InstrId} {g : FuncId}
    (hcall : (p.instr i).calledFunction? = some g) : r.countInstr p i =
      { r with opcodes := r.opcodes.add (p.instr i).kind.opcode }.countCall (p.func g) := by
  simp only [countInstr, hcall, Option.elim]

theorem Counted.countInstr (h : Counted p ids r) (i : InstrId) :
    Counted p (ids ++ [i]) (r.countInstr p i) := by
  have hopcodes : ∀ name, name ∈ (r.opcodes.add (p.instr i).kind.opcode).names ↔
      ∃ j ∈ ids ++ [i], (p.instr j).kind.opcode = name := by
    intro name
    rw [Tally.mem_names_add, exists_mem_snoc, h.opcodes, eq_comm]
  cases hcall : (p.instr i).calledFunction? with
  | none =>
    have hnone : ∀ declared name, ¬ CallsNamed p declared name i := by
      rintro declared name ⟨g, hg, -⟩
      rw [hcall] at hg
      cases hg
    rw [countInstr_of_none hcall]
    refine ⟨hopcodes, fun name => ?_, fun name => ?_⟩
    · rw [exists_mem_snoc, h.external, or_iff_left (hnone true name)]
    · rw [exists_mem_snoc, h.internal, or_iff_left (hnone false name)]
  | some g =>
    have hnamed : ∀ declared name, CallsNamed p declared name i ↔
        (p.func g).isDeclaration = declared ∧ name = (p.func g).name := by
      intro declared name
      unfold CallsNamed
      rw [hcall]
      simp [eq_comm]
    rw [countInstr_of_some hcall]
    unfold countCall
    split
    · rename_i hdeclared
      refine ⟨hopcodes, fun name => ?_, fun name => ?_⟩
      · rw [exists_mem_snoc, Tally.mem_names_add, h.external, hnamed]
        simp [hdeclared]
      · rw [exists_mem_snoc, h.internal, hnamed]
        simp [hdeclared]
    · rename_i hdefined
      refine ⟨hopcodes, fun name => ?_, fun name => ?_⟩
      · rw [exists_mem_snoc, h.external, hnamed]
        simp [hdefined]
      · rw [exists_mem_snoc, Tally.mem_names_add, h.internal, hnamed]
        simp [hdefined]

theorem counted_collect (profile : String) (p : Program) :
    Counted p (p.liveFunctions.flatMap p.instrsOf) (collect profile p) := by
  unfold collect
  induction p.liveFunctions.flatMap p.instrsOf using List.reverseRecOn with
  | nil => exact ⟨by simp [Tally.names], by simp [Tally.names], by simp [Tally.names]⟩
  | append_singleton ids i ih =>
    rw [List.foldl_append]
    exact ih.countInstr i

/-! ## 3. Violations -/

/-- Whether settings allow an instruction: its opcode, and the function it calls if the callee is a
    function on its own. -/
structure Allows (s : ValidationSettings) (p : Program) (i : InstrId) : Prop where
  opcode : s.allowlistOpcodes = true → (p.instr i).kind.opcode ∈ s.opcodes
  external : s.allowlistExternalCalls = true → ∀ name, CallsNamed p true name i →
    name ∈ s.externalCalls
  internal : s.allowInternalCalls = false → ∀ name, ¬ CallsNamed p false name i

theorem violationsOf_eq_nil {s : ValidationSettings} : r.violationsOf s = [] ↔
    (s.allowlistOpcodes = true → ∀ name ∈ r.opcodes.names, name ∈ s.opcodes) ∧
    (s.allowlistExternalCalls = true → ∀ name ∈ r.externalCalls.names, name ∈ s.externalCalls) ∧
    (s.allowInternalCalls = false → ∀ name, name ∉ r.internalCalls.names) := by
  have hempty : r.internalCalls.isEmpty = true ↔ ∀ name, name ∉ r.internalCalls.names := by
    rw [List.isEmpty_iff, ← List.eq_nil_iff_forall_not_mem, Tally.names, List.map_eq_nil_iff]
  unfold violationsOf
  rw [List.append_eq_nil_iff, List.append_eq_nil_iff, and_assoc, ← hempty]
  simp only [ite_eq_right_iff, notAllowed_eq_nil, Bool.and_eq_true, Bool.not_eq_eq_eq_not,
    Bool.not_true, List.cons_ne_nil, imp_false, not_and, Bool.not_eq_false]

theorem isValid_check {profile : String} {s : ValidationSettings} :
    (check profile s p).isValid = true ↔
      ∀ f, (p.func f).erased = false → ∀ i ∈ p.instrsOf f, Allows s p i := by
  have hcounted := counted_collect profile p
  have hvalid : (check profile s p).isValid = true ↔ (collect profile p).violationsOf s = [] :=
    List.isEmpty_iff
  have hmem : ∀ i, i ∈ p.liveFunctions.flatMap p.instrsOf ↔
      ∃ f, (p.func f).erased = false ∧ i ∈ p.instrsOf f := by
    intro i
    simp only [List.mem_flatMap, mem_liveFunctions]
  rw [hvalid, violationsOf_eq_nil]
  simp only [hcounted.opcodes, hcounted.external, hcounted.internal, hmem]
  constructor
  · rintro ⟨hopcodes, hexternal, hinternal⟩ f hf i hi
    exact ⟨fun hs => hopcodes hs _ ⟨i, ⟨f, hf, hi⟩, rfl⟩,
      fun hs name hname => hexternal hs name ⟨i, ⟨f, hf, hi⟩, hname⟩,
      fun hs name hname => hinternal hs name ⟨i, ⟨f, hf, hi⟩, hname⟩⟩
  · intro hall
    refine ⟨fun hs name => ?_, fun hs name => ?_, fun hs name => ?_⟩
    · rintro ⟨i, ⟨f, hf, hi⟩, rfl⟩
      exact (hall f hf i hi).opcode hs
    · rintro ⟨i, ⟨f, hf, hi⟩, hname⟩
      exact (hall f hf i hi).external hs name hname
    · rintro ⟨i, ⟨f, hf, hi⟩, hname⟩
      exact (hall f hf i hi).internal hs name hname

end ValidationReport

/-! ## 4. Validation -/

namespace Pass

open ValidationReport

variable {profile : String} {s : ValidationSettings} {st st' : PassState}

theorem isValid_of_validate (h : validate profile s st = .ok () st') :
    (ValidationReport.check profile s st.program).isValid = true := by
  by_contra hinvalid
  unfold validate at h
  rw [get_bind] at h
  simp only [hinvalid, Bool.false_eq_true, if_false] at h
  -- the report is left and the pass fails, whether or not the report was written first
  split at h
  · obtain ⟨-, t, -, h⟩ := bind_ok h
    cases h
  · obtain ⟨-, t, -, h⟩ := bind_ok h
    obtain ⟨-, u, -, h⟩ := bind_ok h
    cases h

/-- Behind a validation every opcode is allowed, and whatever is called by name is a declared
    function that is allowed. -/
theorem validate_direct_calls (hexternal : s.allowlistExternalCalls = true)
    (hinternal : s.allowInternalCalls = false) (h : validate profile s st = .ok () st')
    {f : FuncId} (hf : (st.program.func f).erased = false) {i : InstrId}
    (hi : i ∈ st.program.instrsOf f) :
    (s.allowlistOpcodes = true → (st.program.instr i).kind.opcode ∈ s.opcodes) ∧
    ∀ g, (st.program.instr i).callee? = some (.func g) →
      (st.program.func g).isDeclaration = true ∧
        (st.program.func g).name ∈ s.externalCalls := by
  have hallows := isValid_check.mp (isValid_of_validate h) f hf i hi
  refine ⟨hallows.opcode, fun g hcallee => ?_⟩
  have hcall : (st.program.instr i).calledFunction? = some g := by
    rw [Instr.calledFunction?, hcallee]
    rfl
  have hdeclared : (st.program.func g).isDeclaration = true := by
    by_contra hdefined
    exact hallows.internal hinternal _ ⟨g, hcall, Bool.eq_false_iff.mpr hdefined, rfl⟩
  exact ⟨hdeclared, hallows.external hexternal _ ⟨g, hcall, hdeclared, rfl⟩⟩

/-- An entry point that calls a declared function of the base profile, and a defined function through
    a conversion. -/
def disguised : Program where
  name := "disguised"
  functions := #[
    ⟨"Main", .void, [], false, none, none, [.pair "EntryPoint" none], [⟨0⟩], false⟩,
    ⟨"Helper", .int 64, [], false, none, none, [], [⟨1⟩], false⟩,
    ⟨"__quantum__qis__dumpregister__body", .void, [], false, none, none, [], [], false⟩]
  blocks := #[
    ⟨some "entry", some ⟨0⟩, [⟨0⟩, ⟨1⟩, ⟨2⟩], false⟩,
    ⟨some "entry", some ⟨1⟩, [⟨3⟩], false⟩]
  instrs := #[
    ⟨.call .none, .void, [.func ⟨2⟩], none, some ⟨0⟩, false⟩,
    ⟨.call .none, .void, [.cast .bitcast (.func ⟨1⟩) (.ptr (.func .void [] false))], none, some ⟨0⟩,
      false⟩,
    ⟨.ret, .void, [], none, some ⟨0⟩, false⟩,
    ⟨.ret, .void, [.int 64 0], none, some ⟨1⟩, false⟩]

theorem validate_direct_calls_disguised :
    ∃ st', validate "base" .base ⟨disguised, {}, {}, {}⟩ = .ok () st' ∧
      (disguised.func ⟨2⟩).isDeclaration = true ∧
      (disguised.func ⟨2⟩).name ∈ ValidationSettings.base.externalCalls := by
  obtain ⟨u, st', hok, -⟩ := exists_ok (r := validate "base" .base ⟨disguised, {}, {}, {}⟩)
    (P := fun _ => True) (by decide +kernel)
  exact ⟨st', hok, (validate_direct_calls rfl rfl hok (f := ⟨0⟩) (i := ⟨0⟩) rfl
    (by decide +kernel)).2 ⟨2⟩ rfl⟩

/-- A defined function that is called through a conversion is counted nowhere. -/
theorem disguised_call_passes : disguised.Sound ∧ disguised.verify = .ok () ∧
    (∃ st', validate "base" .base ⟨disguised, {}, {}, {}⟩ = .ok () st') ∧
    ⟨1⟩ ∈ disguised.instrsOf ⟨0⟩ ∧ (disguised.instr ⟨1⟩).isCall = true ∧
    (disguised.instr ⟨1⟩).callee? =
      some (.cast .bitcast (.func ⟨1⟩) (.ptr (.func .void [] false))) ∧
    (disguised.func ⟨1⟩).isDeclaration = false := by
  refine ⟨by decide +kernel, by rfl, ?_, by decide +kernel, rfl, rfl, rfl⟩
  obtain ⟨u, st', hok, -⟩ := exists_ok (r := validate "base" .base ⟨disguised, {}, {}, {}⟩)
    (P := fun _ => True) (by decide +kernel)
  exact ⟨st', hok⟩

end Pass

end QirProfile
