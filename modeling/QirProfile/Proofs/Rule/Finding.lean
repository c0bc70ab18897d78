import QirProfile.Proofs.Program.Closed
import QirProfile.Proofs.Rule.Fates
import QirProfile.Proofs.Rule.Matching

/-!
# What the rules of the catalogue find

A rule finds calls by the name of the function and by the shape of the operands. `Found` says for each
replacer of the catalogue what its rule has found where it matches, and what it has captured of that.
-/

namespace QirProfile

theorem Value.toInt?_eq_some {v : Value} {n : Int} (h : v.toInt? = some n) :
    ∃ bits, v = .int bits n := by
  cases v <;> cases h
  exact ⟨_, rfl⟩

theorem Instr.Closes.not_replaceable {i : Instr} (h : i.Closes) : ¬ i.kind.Replaceable := by
  rintro ⟨hends, -⟩
  rw [← Instr.isTerminator, h.ends] at hends
  cases hends

/-! ## 1. Calls with their arguments -/

namespace Program

variable {p : Program} {id : InstrId} {name other : String} {args args' : List Value} {v : Value}
  {m n : Int}

/-- A live call of a function with these arguments. -/
structure CallsWith (p : Program) (id : InstrId) (function : String) (args : List Value) : Prop where
  live : (p.instr id).erased = false
  calls : p.Calls id function
  operands : ∃ callee, (p.instr id).operands = args ++ [callee]

theorem CallsWith.unique (h : p.CallsWith id name args) (h' : p.CallsWith id other args') :
    name = other ∧ args = args' := by
  obtain ⟨callee, hcallee⟩ := h.operands
  obtain ⟨callee', hcallee'⟩ := h'.operands
  rw [hcallee] at hcallee'
  exact ⟨h.calls.unique h'.calls, (List.append_inj' hcallee' rfl).1⟩

/-- A live instruction that can go. Only an invoke that says where control goes on cannot. -/
structure Removable (p : Program) (id : InstrId) : Prop where
  live : (p.instr id).erased = false
  replaceable : p.Directed id → (p.instr id).kind.Replaceable

theorem Removable.not_closes (h : p.Removable id) : ¬ (p.instr id).Closes := fun hcloses =>
  hcloses.not_replaceable (h.replaceable fun _ => hcloses.destinations)

theorem replaceable_of_calledFunction? {i : Instr} {k : FuncId} (h : i.calledFunction? = some k)
    (hinvoke : i.kind ≠ .invoke) : i.kind.Replaceable := by
  unfold Instr.calledFunction? Instr.callee? Instr.isCall Instr.isInvoke at h
  cases hkind : i.kind with
  | call marker => exact ⟨rfl, nofun, nofun⟩
  | invoke => exact absurd hkind hinvoke
  | _ =>
    rw [hkind] at h
    cases h

theorem CallsWith.removable (h : p.CallsWith id name args)
    (hargs : args.length ≤ 1 ∨ args.length = 2 ∧ ∃ v ∈ args, v.toBlock? = none) : p.Removable id := by
  obtain ⟨k, hcalled, -⟩ := h.calls
  refine ⟨h.live, fun hdirected => replaceable_of_calledFunction? hcalled fun hinvoke => ?_⟩
  obtain ⟨callee, hoperands⟩ := h.operands
  have hsome := hdirected h.live hinvoke
  rw [Instr.invokeDestinations?_of_few hinvoke hoperands hargs] at hsome
  cases hsome

/-- A value that points to an address given as a number. -/
def PointsAt (p : Program) (v : Value) (address : Int) : Prop :=
  p.isCast .inttoptr v = true ∧ ∃ w, p.operandsOf v = [w] ∧ w.toInt? = some address

theorem PointsAt.unique (h : p.PointsAt v m) (h' : p.PointsAt v n) : m = n := by
  obtain ⟨-, w, hw, hm⟩ := h
  obtain ⟨-, w', hw', hn⟩ := h'
  rw [hw] at hw'
  obtain rfl := (List.cons.inj hw').1
  exact Option.some.inj (hm.symm.trans hn)

/-- A call that asks for a number of qubit addresses. -/
inductive AllocatesQubits (p : Program) (id : InstrId) : Nat → Prop where
  | one (h : p.CallsWith id "__quantum__rt__qubit_allocate" []) : AllocatesQubits p id 1
  | array {bits count : Nat} {size : Int} (hsize : size = count)
      (h : p.CallsWith id "__quantum__rt__qubit_allocate_array" [.int bits size]) :
      AllocatesQubits p id count

/-- A load of the element of an array at a constant index, through a converted element pointer. -/
structure ReadsElement (p : Program) (id : InstrId) (array : Value) (bits : Nat) (index : Int) :
    Prop where
  load : ∃ align, (p.instr id).kind = .load align
  path : ∃ pointer element, (p.instr id).operands = [pointer] ∧ p.isCast .bitcast pointer = true ∧
    p.operandsOf pointer = [.instr element] ∧
    p.CallsWith element "__quantum__rt__array_get_element_ptr_1d" [array, .int bits index]

/-- The function whose calls fetch the canonical zero, or the canonical one. -/
def canonicalFetch (negated : Bool) : String :=
  if negated then "__quantum__rt__result_get_zero" else "__quantum__rt__result_get_one"

/-- A comparison of a result with a canonical one, on either side. -/
structure Compares (p : Program) (id : InstrId) (result : Value) (fetch : InstrId) (negated : Bool) :
    Prop where
  canonical : p.CallsWith fetch (canonicalFetch negated) []
  sides : p.CallsWith id "__quantum__rt__result_equal" [result, .instr fetch] ∨
    p.CallsWith id "__quantum__rt__result_equal" [.instr fetch, result]

theorem Compares.calls {result : Value} {fetch : InstrId} {negated : Bool}
    (h : p.Compares id result fetch negated) : p.Calls id "__quantum__rt__result_equal" :=
  h.sides.elim (·.calls) (·.calls)

theorem Compares.removable {result : Value} {fetch : InstrId} {negated : Bool}
    (h : p.Compares id result fetch negated) : p.Removable id :=
  -- one of the two arguments is the canonical result, and no block
  h.sides.elim (·.removable (.inr ⟨rfl, .instr fetch, by simp, rfl⟩))
    (·.removable (.inr ⟨rfl, .instr fetch, by simp, rfl⟩))

end Program

/-! ## 2. What patterns find -/

namespace Pattern

open Program (CallsWith PointsAt Removable ReadsElement Compares ElementPart)

variable {p : Program} {q r : Pattern} {v : Value} {c c' : Captures} {id : InstrId} {name : String}
  {label : Option String}

theorem match?_single {s : Shape} : match? p (node s label [q]) v c = some c' ↔
    s.test p v = true ∧
      ∃ w, p.operandsOf v = [w] ∧ match? p q w (label.elim c (c.insert · v)) = some c' := by
  rw [match?_inner (List.cons_ne_nil q []), matchAll?_cons]
  simp only [matchAll?_nil]
  constructor
  · rintro ⟨htest, w, ws, d, hv, hq, rfl, rfl⟩
    exact ⟨htest, w, hv, hq⟩
  · rintro ⟨htest, w, hv, hq⟩
    exact ⟨htest, w, [], c', hv, hq, rfl, rfl⟩

theorem match?_any : match? p any v c = some c' ↔ c = c' := by
  rw [any, match?_leaf]
  simp [Shape.test]

theorem match?_any_as : match? p (any.as name) v c = some c' ↔ c.insert name v = c' := by
  rw [any, as, shape, children, match?_leaf]
  simp [Shape.test]

theorem match?_constInt_as : match? p (constInt.as name) v c = some c' ↔
    v.toInt?.isSome = true ∧ c.insert name v = c' :=
  match?_leaf

theorem test_of_match? (h : match? p q v c = some c') : q.shape.test p v = true := by
  obtain ⟨s, label, cs⟩ := q
  cases cs with
  | nil => exact (match?_leaf.mp h).1
  | cons d ds => exact (match?_inner (List.cons_ne_nil d ds)).mp h |>.1

theorem test_call {function : String} : (Shape.call function).test p (.instr id) = true ↔
    (p.instr id).erased = false ∧ p.Calls id function := by
  have hcalled : p.calledName? (.instr id) =
      (p.instr id).calledFunction?.map fun k => (p.func k).name := by
    cases hk : (p.instr id).calledFunction? <;> simp [Program.calledName?, Value.toInstr?, hk]
  rw [Shape.test, hcalled, Bool.and_eq_true, beq_iff_eq, Option.map_eq_some_iff]
  refine and_congr_left fun _ => ?_
  cases hlive : (p.instr id).erased <;> simp [Program.liveKind?, Value.toInstr?, hlive]

theorem test_cast {op : CastOp} (h : p.isCast op (.instr id) = true) :
    (p.instr id).kind = .cast op := by
  simp only [Program.isCast, Program.liveKind?, Value.toInstr?, Option.bind_some, beq_iff_eq] at h
  split at h
  · cases h
  · exact Option.some.inj h

theorem live_of_cast {op : CastOp} (h : p.isCast op (.instr id) = true) :
    (p.instr id).erased = false := by
  simp only [Program.isCast, Program.liveKind?, Value.toInstr?, Option.bind_some, beq_iff_eq] at h
  split at h
  · cases h
  · rename_i hlive
    exact Bool.eq_false_iff.mpr hlive

theorem test_load (h : Shape.load.test p (.instr id) = true) :
    ∃ align, (p.instr id).kind = .load align := by
  simp only [Shape.test, Program.liveKind?, Value.toInstr?, Option.bind_some] at h
  split at h
  · rename_i align heq
    split at heq
    · cases heq
    · exact ⟨align, Option.some.inj heq⟩
  · cases h

theorem match?_call {args : List Pattern} :
    match? p (node (.call name) label (args ++ [any])) (.instr id) c = some c' ↔
      (p.instr id).erased = false ∧ p.Calls id name ∧
        matchAll? p (args ++ [any]) (p.instr id).operands (label.elim c (c.insert · (.instr id))) =
          some c' := by
  rw [match?_inner (List.append_ne_nil_of_right_ne_nil _ (List.cons_ne_nil _ _)), test_call, and_assoc]
  exact Iff.rfl

theorem match?_call_nil : match? p (node (.call name) label ([] ++ [any])) (.instr id) c = some c' ↔
    p.CallsWith id name [] ∧ label.elim c (c.insert · (.instr id)) = c' := by
  rw [match?_call, List.nil_append, matchAll?_cons]
  simp only [matchAll?_nil, match?_any]
  constructor
  · rintro ⟨hlive, hcalls, callee, _, d, hoperands, rfl, rfl, rfl⟩
    exact ⟨⟨hlive, hcalls, callee, hoperands⟩, rfl⟩
  · rintro ⟨⟨hlive, hcalls, callee, hoperands⟩, rfl⟩
    exact ⟨hlive, hcalls, callee, [], _, hoperands, rfl, rfl, rfl⟩

theorem match?_call_one : match? p (call name [q]) (.instr id) c = some c' ↔
    ∃ v, p.CallsWith id name [v] ∧ match? p q v c = some c' := by
  rw [call, match?_call]
  simp only [List.cons_append, List.nil_append, matchAll?_cons, matchAll?_nil, match?_any]
  constructor
  · rintro ⟨hlive, hcalls, v, _, d, hoperands, hq, callee, _, d', rfl, rfl, rfl, rfl⟩
    exact ⟨v, ⟨hlive, hcalls, callee, hoperands⟩, hq⟩
  · rintro ⟨v, ⟨hlive, hcalls, callee, hoperands⟩, hq⟩
    exact ⟨hlive, hcalls, v, [callee], c', hoperands, hq, callee, [], c', rfl, rfl, rfl, rfl⟩

theorem match?_call_two :
    match? p (node (.call name) label ([q, r] ++ [any])) (.instr id) c = some c' ↔
      ∃ v w d, p.CallsWith id name [v, w] ∧
        match? p q v (label.elim c (c.insert · (.instr id))) = some d ∧ match? p r w d = some c' := by
  rw [match?_call]
  simp only [List.cons_append, List.nil_append, matchAll?_cons, matchAll?_nil, match?_any]
  constructor
  · rintro ⟨hlive, hcalls, v, _, d, hoperands, hq, w, _, d', rfl, hr, callee, _, d'', rfl, rfl, rfl, rfl⟩
    exact ⟨v, w, d, ⟨hlive, hcalls, callee, hoperands⟩, hq, hr⟩
  · rintro ⟨v, w, d, ⟨hlive, hcalls, callee, hoperands⟩, hq, hr⟩
    exact ⟨hlive, hcalls, v, [w, callee], d, hoperands, hq, w, [callee], c', rfl, hr, callee, [], c', rfl,
      rfl, rfl, rfl⟩

theorem match?_pointer :
    match? p (node .intToPtr label [constInt.as name]) v c = some c' ↔
      ∃ w address, p.isCast .inttoptr v = true ∧ p.operandsOf v = [w] ∧ w.toInt? = some address ∧
        (label.elim c (c.insert · v)).insert name w = c' := by
  rw [match?_single]
  simp only [match?_constInt_as, Option.isSome_iff_exists]
  constructor
  · rintro ⟨hcast, w, hw, ⟨address, ha⟩, rfl⟩
    exact ⟨w, address, hcast, hw, ha, rfl⟩
  · rintro ⟨w, address, hcast, hw, ha, rfl⟩
    exact ⟨hcast, w, hw, ⟨address, ha⟩, rfl⟩

theorem match?_fetch : match? p ((call name []).as "one") v c = some c' ↔
    ∃ fetch, v = .instr fetch ∧ p.CallsWith fetch name [] ∧ c.insert "one" v = c' := by
  constructor
  · intro h
    have htest := test_of_match? h
    cases v with
    | instr fetch => exact ⟨fetch, rfl, match?_call_nil.mp h⟩
    | _ => cases htest
  · rintro ⟨fetch, rfl, h⟩
    exact match?_call_nil.mpr h

end Pattern

/-! ## 3. What replacers are offered -/

/-- The names of the functions whose calls a group removes. -/
def RuleGroup.removed : RuleGroup → List String
  | .referenceCounting => Replacing.referenceCounting
  | .aliasCounting => Replacing.aliasCounting
  | .stringSupport => Replacing.stringSupport
  | _ => []

/-- The names of the functions whose calls are removed. -/
def RuleSettings.removed (s : RuleSettings) : List String :=
  s.groups.flatMap (·.removed)

namespace Replacing

open Program (CallsWith PointsAt Removable ReadsElement Compares ElementPart)
open Pattern

variable {settings : RuleSettings} {p : Program} {id : InstrId} {c : Captures}

theorem not_mem_removed {name : String}
    (h : name ∉ referenceCounting ++ aliasCounting ++ stringSupport) : name ∉ settings.removed := by
  simp only [List.mem_append, not_or] at h
  obtain ⟨⟨hcounts, haliases⟩, hstrings⟩ := h
  intro hname
  obtain ⟨g, -, hg⟩ := List.mem_flatMap.mp hname
  cases g with
  | referenceCounting => exact hcounts hg
  | aliasCounting => exact haliases hg
  | stringSupport => exact hstrings hg
  | _ => cases hg

/-- What a rule of the catalogue has found, and captured of it, where its replacer is tried. -/
inductive Found (settings : RuleSettings) (p : Program) (id : InstrId) (c : Captures) :
    Replacer Addresses → Prop where
  | removed {name : String} (hname : name ∈ settings.removed) (hcalls : p.Calls id name) :
      Found settings p id c deleteInstr
  | compared {result : Value} {fetch : InstrId} {negated : Bool}
      (h : p.Compares id result fetch negated) (hresult : c.lookup "result" = some result)
      (hone : c.instr? "one" = some fetch) : Found settings p id c (readResult negated)
  | array {v : Value} (h : p.CallsWith id "__quantum__rt__qubit_allocate_array" [v])
      (hsize : c.lookup "size" = some v) : Found settings p id c (allocateArray settings.integerWidth)
  | element {array : Value} {bits : Nat} {base index : Int}
      (h : p.ReadsElement id array bits index) (hbase : p.PointsAt array base)
      (harray : c.int? "arrayName" = some base) (hindex : c.lookup "index" = some (.int bits index))
      (hparts : ∀ name ∈ ["getElement", "cast"], ∀ i, c.instr? name = some i →
        p.ElementPart i ∧ p.Removable i) :
      Found settings p id c (accessElement settings.integerWidth)
  | releasedArray {v : Value} {address : Int}
      (h : p.CallsWith id "__quantum__rt__qubit_release_array" [v]) (hv : p.PointsAt v address)
      (harray : c.instr? "array" = v.toInstr?) (haddress : c.int? "const" = some address) :
      Found settings p id c releaseArray
  | qubit (h : p.CallsWith id "__quantum__rt__qubit_allocate" []) :
      Found settings p id c (allocateQubit settings.integerWidth)
  | released {v : Value} {address : Int} (h : p.CallsWith id "__quantum__rt__qubit_release" [v])
      (hv : p.PointsAt v address) (haddress : c.int? "const" = some address) :
      Found settings p id c releaseQubit
  | dropped {v : Value} (h : p.CallsWith id "__quantum__rt__qubit_release" [v]) :
      Found settings p id c deleteInstr
  | measured {qubit : Value} (h : p.CallsWith id "__quantum__qis__m__body" [qubit])
      (hqubit : c.lookup "qubit" = some qubit) :
      Found settings p id c (measure settings.integerWidth)

theorem found_element (h : Pattern.match? p elementAccess (.instr id) [] = some c) :
    Found settings p id c (accessElement settings.integerWidth) := by
  obtain ⟨hload, pointer, hpointer, hcast⟩ := match?_single.mp h
  obtain ⟨hbitcast, element, helement, hmatch⟩ := match?_single.mp hcast
  have htest := test_of_match? (q := node (.call "__quantum__rt__array_get_element_ptr_1d")
    (some "getElement") ([intToPtr (constInt.as "arrayName"), constInt.as "index"] ++ [any])) hmatch
  obtain ⟨g, rfl⟩ : ∃ g, element = .instr g := by
    cases element <;> first | exact ⟨_, rfl⟩ | cases htest
  obtain ⟨array, index, d, hcall, harray, hindex⟩ := match?_call_two.mp hmatch
  obtain ⟨w, base, hpoint, hw, hbase, rfl⟩ := match?_pointer.mp harray
  obtain ⟨hconst, rfl⟩ := match?_constInt_as.mp hindex
  obtain ⟨n, hn⟩ := Option.isSome_iff_exists.mp hconst
  obtain ⟨bits, rfl⟩ := Value.toInt?_eq_some hn
  refine .element ⟨test_load hload, pointer, g, hpointer, hbitcast, helement, hcall⟩
    ⟨hpoint, w, hw, hbase⟩ ?_ ?_ fun name hname i hi => ?_
  · simp [Captures.int?, Captures.lookup_insert, hbase]
  · simp [Captures.lookup_insert]
  · rcases List.mem_pair.mp hname with rfl | rfl
    · simp [Captures.instr?, Captures.lookup_insert, Value.toInstr?] at hi
      subst hi
      exact ⟨.inr hcall.calls, hcall.removable (.inr ⟨rfl, .int bits n, by simp, rfl⟩)⟩
    · simp [Captures.instr?, Captures.lookup_insert] at hi
      cases pointer <;> cases hi
      have hkind := test_cast hbitcast
      exact ⟨.inl hkind, live_of_cast hbitcast, fun _ => by
        rw [hkind]
        exact ⟨rfl, by simp, by simp⟩⟩

/-- Where the rule matches, its replacer is offered what was found. -/
def Finds (settings : RuleSettings) (p : Program) (id : InstrId) (r : Rule Addresses) : Prop :=
  ∀ c f, match? r p id = some c → r.replacer = some f → Found settings p id c f

theorem finds_of {q : Pattern} {f : Replacer Addresses}
    (h : ∀ c, q.match? p (.instr id) [] = some c → Found settings p id c f) :
    Finds settings p id (.of q f) := by
  rintro c g hmatch ⟨⟩
  exact h c hmatch

theorem finds_resultRead (negated : Bool) {canonical : String}
    (hcanonical : canonical = Program.canonicalFetch negated) :
    ∀ r ∈ resultReadRules canonical negated, Finds settings p id r := by
  subst hcanonical
  simp only [resultReadRules, List.forall_mem_cons]
  refine ⟨finds_of fun c hmatch => ?_, finds_of fun c hmatch => ?_, List.forall_mem_nil _⟩
  · obtain ⟨v, w, d, hcall, hresult, hone⟩ := match?_call_two.mp hmatch
    obtain rfl := match?_any_as.mp hresult
    obtain ⟨fetch, rfl, hfetch, rfl⟩ := match?_fetch.mp hone
    exact .compared ⟨hfetch, .inl hcall⟩ (by simp [Captures.lookup_insert])
      (by simp [Captures.instr?, Captures.lookup_insert, Value.toInstr?])
  · obtain ⟨w, v, d, hcall, hone, hresult⟩ := match?_call_two.mp hmatch
    obtain ⟨fetch, rfl, hfetch, rfl⟩ := match?_fetch.mp hone
    obtain rfl := match?_any_as.mp hresult
    exact .compared ⟨hfetch, .inr hcall⟩ (by simp [Captures.lookup_insert])
      (by simp [Captures.instr?, Captures.lookup_insert, Value.toInstr?])

theorem arraySizes_not_mem : RuleGroup.arraySizes ∉ settings.groups := by
  intro hg
  obtain ⟨⟨on, g⟩, hmem, hon⟩ := List.mem_filterMap.mp hg
  cases on
  · cases hon
  · simp at hmem hon
    simp [hon] at hmem

theorem finds_group {g : RuleGroup} (hg : g ∈ settings.groups) :
    ∀ r ∈ g.rules settings.integerWidth, Finds settings p id r := by
  have hremovals : ∀ r ∈ g.removed.map removeCalls, Finds settings p id r := by
    intro r hr
    obtain ⟨name, hname, rfl⟩ := List.mem_map.mp hr
    refine finds_of fun c hmatch => .removed (List.mem_flatMap.mpr ⟨g, hg, hname⟩) ?_
    exact (test_call.mp (match?_leaf.mp hmatch).1).2
  cases g with
  | referenceCounting | aliasCounting | stringSupport => exact hremovals
  | resultOne => exact finds_resultRead false rfl
  | resultZero => exact finds_resultRead true rfl
  | qubitArrays =>
    simp only [RuleGroup.rules, qubitArrayRules, List.forall_mem_cons]
    refine ⟨finds_of fun c hmatch => ?_, finds_of fun c => found_element, finds_of fun c hmatch => ?_,
      List.forall_mem_nil _⟩
    · obtain ⟨v, hcall, hsize⟩ := match?_call_one.mp hmatch
      obtain rfl := match?_any_as.mp hsize
      exact .array hcall (by simp [Captures.lookup_insert])
    · obtain ⟨v, hcall, hv⟩ := match?_call_one.mp hmatch
      obtain ⟨w, address, hcast, hoperands, hw, rfl⟩ := match?_pointer.mp hv
      exact .releasedArray hcall ⟨hcast, w, hoperands, hw⟩
        (by simp [Captures.instr?, Captures.lookup_insert])
        (by simp [Captures.int?, Captures.lookup_insert, hw])
  | qubits =>
    simp only [RuleGroup.rules, qubitRules, List.forall_mem_cons]
    refine ⟨finds_of fun c hmatch => .qubit (match?_call_nil.mp hmatch).1,
      finds_of fun c hmatch => ?_, finds_of fun c hmatch => ?_, List.forall_mem_nil _⟩
    · obtain ⟨v, hcall, hv⟩ := match?_call_one.mp hmatch
      obtain ⟨w, address, hcast, hoperands, hw, rfl⟩ := match?_pointer.mp hv
      exact .released hcall ⟨hcast, w, hoperands, hw⟩
        (by simp [Captures.int?, Captures.lookup_insert, hw])
    · obtain ⟨v, hcall, -⟩ := match?_call_one.mp hmatch
      exact .dropped hcall
  | results =>
    refine List.forall_mem_singleton.mpr (finds_of fun c hmatch => ?_)
    obtain ⟨v, hcall, hqubit⟩ := match?_call_one.mp hmatch
    obtain rfl := match?_any_as.mp hqubit
    exact .measured hcall (by simp [Captures.lookup_insert])
  | arraySizes => exact absurd hg arraySizes_not_mem

/-- Every rule of the catalogue finds what it is for. -/
theorem finds_rules : ∀ r ∈ settings.rules, Finds settings p id r := by
  intro r hr
  obtain ⟨g, hg, hr⟩ := List.mem_flatMap.mp hr
  exact finds_group hg r hr

end Replacing

end QirProfile
