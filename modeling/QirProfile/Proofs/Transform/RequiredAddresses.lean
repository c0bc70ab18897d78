import QirProfile.Proofs.Transform.AddressConstants

/-!
# The numbers of addresses that are required

Along the execution path the entry points are marked with the numbers of qubit and result addresses in use.
The numbers are taken from the allocators when all rules have been tried. This is about the addresses that
occur in the program then.
-/

namespace QirProfile

/-! ## 1. Allocators of which nothing is in use -/

namespace Allocator

/-- No address has been handed out yet. -/
structure Unused (a : Allocator) : Prop where
  sound : a.Sound
  none : a.nextId = 0

theorem unused_withCapacity (capacity : Nat) (mayExtend : Bool) : (withCapacity capacity mayExtend).Unused :=
  ⟨sound_withCapacity capacity mayExtend, rfl⟩

theorem Unused.setReuse {a : Allocator} (h : a.Unused) (reuse : Bool) : (a.setReuse reuse).Unused :=
  ⟨sound_serve h.sound (.setReuse reuse), h.none⟩

theorem Unused.free {a : Allocator} (h : a.Unused) : a.freeAddresses = [] := by
  refine List.eq_nil_iff_forall_not_mem.mpr fun x hx => ?_
  have hbelow := h.sound.below x (List.mem_append_right _ hx)
  rw [h.none] at hbelow
  exact Nat.not_lt_zero x hbelow

end Allocator

namespace Transform

open Replacing
open Program (AllocatesQubits ReadsElement)

variable {settings : RuleSettings} {s : RuleState Addresses} {id a x : InstrId} {ids : List InstrId}
  {of : Addresses → Allocator} {count start : Nat}

/-! ## 2. Accepted instructions -/

/-- The visited instructions that a rule accepts, in order. -/
def acceptedIn (rules : List (Rule Addresses)) : RuleState Addresses → List InstrId → List InstrId
  | _, [] => []
  | s, id :: ids => (if accepts rules s id then [id] else []) ++ acceptedIn rules (visit rules s id) ids

theorem mem_acceptedIn {rules : List (Rule Addresses)} (h : id ∈ acceptedIn rules s ids) :
    ∃ xs ys, ids = xs ++ id :: ys ∧ accepts rules (visitAll rules s xs) id = true := by
  induction ids generalizing s with
  | nil => cases h
  | cons i ids ih =>
    rcases List.mem_append.mp h with hhead | hrest
    · split at hhead
      · rename_i haccepts
        obtain rfl := List.mem_singleton.mp hhead
        exact ⟨[], ids, rfl, haccepts⟩
      · cases hhead
    · obtain ⟨xs, ys, rfl, haccepts⟩ := ih hrest
      exact ⟨i :: xs, ys, rfl, haccepts⟩

theorem Attends.of_acceptedIn (hs : s.program.Sound) (h : Attends settings s ids)
    (hid : id ∈ acceptedIn settings.rules s ids) : ∃ xs ys heir answer along, ids = xs ++ id :: ys ∧
      Treated settings id (visitAll settings.rules s xs) (visitAll settings.rules s (xs ++ [id])) heir
        answer along := by
  obtain ⟨xs, ys, rfl, haccepts⟩ := mem_acceptedIn hid
  obtain ⟨-, -, hvisit, -⟩ := h.split hs
  obtain ⟨heir, answer, along, hwork⟩ := hvisit.of_accepts haccepts
  exact ⟨xs, ys, heir, answer, along, rfl, by rwa [visitAll_concat]⟩

/-! ## 3. Measurements are numbered -/

/-- The measurements among the accepted instructions. -/
def measuredIn (p : Program) (rules : List (Rule Addresses)) (s : RuleState Addresses)
    (ids : List InstrId) : List InstrId :=
  (acceptedIn rules s ids).filter fun id => decide (p.Calls id "__quantum__qis__m__body")

theorem measuredIn_cons (p : Program) (rules : List (Rule Addresses)) (s : RuleState Addresses)
    (id : InstrId) (ids : List InstrId) : measuredIn p rules s (id :: ids) =
      (if accepts rules s id = true ∧ p.Calls id "__quantum__qis__m__body" then [id] else []) ++
        measuredIn p rules (visit rules s id) ids := by
  unfold measuredIn
  rw [acceptedIn, List.filter_append]
  by_cases haccepts : accepts rules s id = true <;>
    by_cases hmeasures : p.Calls id "__quantum__qis__m__body" <;> simp [haccepts, hmeasures]

theorem Granted.later {i : InstrId}
    (h : Granted settings (visit settings.rules s i) ids of id a count start) :
    Granted settings s (i :: ids) of id a count start := by
  obtain ⟨xs, ys, name, rfl, hgranted⟩ := h.asked
  exact ⟨⟨i :: xs, ys, name, rfl, hgranted⟩, h.scheduled, h.pointer⟩

theorem Attends.numbered {p : Program} (hs : s.program.Sound) (hp : p.Extends s.program)
    (h : Attends settings s ids) (hfree : s.extra.results.freeAddresses = []) :
    (visitAll settings.rules s ids).extra.results.nextId =
        s.extra.results.nextId + (measuredIn p settings.rules s ids).length ∧
      ∀ (k : Nat) id, (measuredIn p settings.rules s ids)[k]? = some id →
        ∃ a, Granted settings s ids (·.results) id a 1 (s.extra.results.nextId + k) := by
  induction ids generalizing s with
  | nil => exact ⟨rfl, nofun⟩
  | cons i ids ih =>
    have hhead := h.head hs
    have hgrown := hhead.extends hs
    have hih := ih hgrown.sound (hp.trans hgrown) h.2.2
    have hcalls : s.program.Calls i "__quantum__qis__m__body" ↔ p.Calls i "__quantum__qis__m__body" :=
      hp.same_calls (by decide)
    rw [visitAll_cons, measuredIn_cons]
    by_cases hmeasures : accepts settings.rules s i = true ∧ p.Calls i "__quantum__qis__m__body"
    · obtain ⟨heir, answer, along, hwork⟩ := hhead.of_accepts hmeasures.1
      obtain ⟨start, a, rfl, hgranted, hguest⟩ := hwork.work.of_measures (hcalls.mpr hmeasures.2)
      obtain ⟨rfl, hnext, hnone⟩ := Allocator.allocated_next hfree hgranted
      have hattends : Attends settings s ([] ++ i :: ids) := h
      obtain ⟨hscheduled, hpointer⟩ := hattends.ready_after hs hwork hguest
      obtain ⟨hlast, hothers⟩ := hih hnone
      rw [if_pos hmeasures, hlast, hnext, List.length_append, List.length_singleton]
      refine ⟨by omega, fun k id hk => ?_⟩
      cases k with
      | zero =>
        obtain rfl := Option.some.inj hk
        exact ⟨a, ⟨[], ids, _, rfl, hgranted⟩, hscheduled, hpointer⟩
      | succ k =>
        obtain ⟨b, hb⟩ := hothers k id hk
        rw [hnext, Nat.add_assoc, Nat.add_comm 1] at hb
        exact ⟨b, hb.later⟩
    · have hsame : (visit settings.rules s i).extra.results = s.extra.results := by
        generalize visit settings.rules s i = s' at hhead
        cases hhead with
        | declined => rfl
        | accepted haccepted hwork =>
          exact hwork.work.results.resolve_right fun hother =>
            hmeasures ⟨accepts_of_ok haccepted, hcalls.mp hother⟩
      rw [hsame] at hih
      obtain ⟨hnext, hgranted⟩ := hih hfree
      rw [if_neg hmeasures, List.nil_append]
      refine ⟨hnext, fun k id hk => ?_⟩
      obtain ⟨a, ha⟩ := hgranted k id hk
      exact ⟨a, ha.later⟩

end Transform

/-! ## 4. Notes on entry points -/

namespace Func

variable {f : Func} {a : Attribute} {key : String}

theorem filter_addAttribute (f : Func) (a : Attribute) :
    (f.addAttribute a).attributes.filter (·.key == a.key) = [a] := by
  have hnone : (f.attributes.filter (·.key != a.key)).filter (·.key == a.key) = [] := by
    rw [List.filter_filter, List.filter_eq_nil_iff]
    intro b _
    simp
  rw [addAttribute, List.filter_append, hnone, List.nil_append]
  simp

theorem filter_addAttribute_of_ne (h : a.key ≠ key) :
    (f.addAttribute a).attributes.filter (·.key == key) = f.attributes.filter (·.key == key) := by
  rw [addAttribute, List.filter_append, List.filter_filter,
    List.filter_singleton, beq_eq_false_iff_ne.mpr h]
  simp only [cond_false, List.append_nil]
  refine List.filter_congr fun b _ => ?_
  by_cases hb : b.key = key
  · simp [hb, Ne.symm h]
  · simp [hb]

end Func

namespace Transform

section

variable {s : TransformSettings} {b : Addresses} {f : FuncId} {entries : List FuncId} {p : Program}

/-- What is noted on a function. -/
structure Noted (s : TransformSettings) (b : Addresses) (f : Func) : Prop where
  qubits : s.annotateQubitUse = true → f.attributes.filter (·.key == requiredQubitsAttr) =
    [.pair requiredQubitsAttr (some (toString b.qubits.nextId))]
  results : s.annotateResultUse = true → f.attributes.filter (·.key == requiredResultsAttr) =
    [.pair requiredResultsAttr (some (toString b.results.nextId))]

theorem noted_annotate (s : TransformSettings) (b : Addresses) (f : Func) : Noted s b (annotate s b f) := by
  have hqubits := fun f : Func =>
    f.filter_addAttribute (.pair requiredQubitsAttr (some (toString b.qubits.nextId)))
  have hresults := fun f : Func =>
    f.filter_addAttribute (.pair requiredResultsAttr (some (toString b.results.nextId)))
  have hne : requiredResultsAttr ≠ requiredQubitsAttr := by decide
  have hother := fun f : Func => Func.filter_addAttribute_of_ne (f := f)
    (a := .pair requiredResultsAttr (some (toString b.results.nextId))) hne
  unfold annotate
  refine ⟨fun hon => ?_, fun hon => ?_⟩
  · rw [if_pos hon]
    dsimp only
    split
    · exact (hother _).trans (hqubits f)
    · exact hqubits f
  · dsimp only
    rw [if_pos hon]
    exact hresults _

theorem noted_entries (hf : f.index < p.functions.size) (h : f ∈ entries ∨ Noted s b (p.func f)) :
    Noted s b ((entries.foldl (·.updateFunc · (annotate s b)) p).func f) := by
  induction entries generalizing p with
  | nil => exact h.resolve_left List.not_mem_nil
  | cons e rest ih =>
    refine ih (by simpa [Program.updateFunc] using hf) ?_
    by_cases he : e = f
    · subst he
      rw [Program.func_updateFunc_self hf]
      exact .inr (noted_annotate s b _)
    · rw [Program.func_updateFunc_ne he]
      exact h.imp_left fun hmem => (List.mem_cons.mp hmem).resolve_left (Ne.symm he)

end

/-! ## 5. All addresses that occur -/

open Replacing

variable {settings : RuleSettings} {s : TransformSettings} {c c' : Compilation}
  {stats stats' : TransformStatistics}

theorem Granted.unique {st : RuleState Addresses} {ids : List InstrId} {of : Addresses → Allocator}
    {id a x : InstrId} {count count' start start' : Nat} (hwidth : settings.integerWidth = 64)
    (hnodup : ((visitAll settings.rules st ids).scheduled.map (·.old)).Nodup)
    (h : Granted settings st ids of id a count start) (h' : Granted settings st ids of id x count' start')
    (hstart : start < span 64) (hstart' : start' < span 64) : start = start' := by
  obtain rfl : a = x := Option.some.inj (congrArg Replacement.new
    (List.inj_on_of_nodup_map hnodup h.scheduled h'.scheduled rfl))
  by_contra hne
  have hsame := h.pointer.operands.symm.trans h'.pointer.operands
  rw [hwidth] at hsame
  exact ofInt_ne hstart hstart' hne (List.cons.inj hsame).1

theorem Went.noted {run : RuleRun} {c₁ : Compilation} {q : Program} {rs : List Replacement} {f : FuncId}
    (h : Went settings s c run c₁) (hp : c.program.Sound) (hpath : s.executionPathOnly = true)
    (hspliced : Program.Spliced rs c₁.program q) (hf : f ∈ s.entryPoints c.program) :
    Noted s (lastOf settings s c).extra (q.func f) := by
  have hlt := Program.func_lt_of_live (Program.mem_liveFunctions.mp (List.mem_of_mem_filter hf))
  rw [hspliced.func, h.program, if_pos hpath, h.addresses]
  exact noted_entries (hlt.trans_le (h.extends hp).functions) (.inl hf)

theorem applyRules_element (hp : c.program.Sound) (hwidth : settings.integerWidth = 64)
    (hbooks : c.addresses.qubits.Sound) (h : applyRules settings.rules s stats c = .ok stats' c')
    {id a load : InstrId} {count start bits : Nat} {index : Int}
    (hgranted : Granted settings (startOf c) (tried settings s c.program c.addresses) (·.qubits) id a count
      start)
    (hcall : c.program.AllocatesQubits id count)
    (hload : load ∈ acceptedIn settings.rules (startOf c) (tried settings s c.program c.addresses))
    (hreads : c.program.ReadsElement load (.instr id) bits index) :
    ∃ x, ⟨load, some x⟩ ∈ (lastOf settings s c).scheduled ∧
      c.program.GivesWay c'.program load x (.ofInt bits (start + index)) := by
  obtain ⟨run, c₁, n, q, hwent, hready, -⟩ := applyRules_went hp h
  have hattends := hwent.attends
  obtain ⟨xs, ys, heir, answer, along, horder, hwork⟩ := hattends.of_acceptedIn hp hload
  have htrial : Attends settings (startOf c) (xs ++ load :: ys) := horder ▸ hattends
  obtain ⟨x, a', start', -, hscheduled, hguest, hgranted'⟩ := htrial.element hp hwork hreads hcall
  rw [← horder] at hscheduled hguest hgranted'
  -- it has been given the address that the array was given
  obtain rfl : start = start' := by
    have hfirst := hgranted.below Work.moves_qubits hp hattends hbooks
    have hsecond := hgranted'.below Work.moves_qubits hp hattends hbooks
    refine hgranted.unique hwidth ?_ hgranted' (by omega) (by omega)
    exact hwent.scheduled ▸ hready.olds
  have hsame : Value.ofInt bits (Word.normalize start settings.integerWidth + index) =
      .ofInt bits (start + index) := by
    refine Value.ofInt_normalize_add (.inl ?_) index
    rw [hwidth, show Word.bits 64 = 64 from rfl]
    unfold Word.bits
    split <;> omega
  have hgives := (applyRules_pointer hp h hscheduled hguest).2 hreads.lt
  exact ⟨x, hscheduled, hsame ▸ hgives⟩

/-- The noted numbers are enough: all qubit addresses are below the one, and results are numbered
    below the other. -/
theorem applyRules_requiredAddresses (settings : RuleSettings) (s : TransformSettings)
    (hp : c.program.Sound) (hpath : s.executionPathOnly = true) (hwidth : settings.integerWidth = 64)
    (hnotes : s.annotateQubitUse = true ∧ s.annotateResultUse = true)
    (hunused : c.addresses.qubits.Unused ∧ c.addresses.results.Unused)
    (h : applyRules settings.rules s stats c = .ok stats' c') :
    let order := tried settings s c.program c.addresses
    let accepted := acceptedIn settings.rules (startOf c) order
    let measured := measuredIn c.program settings.rules (startOf c) order
    ∃ required < span 64,
      (∀ f ∈ s.entryPoints c.program,
        (c'.program.func f).attributes.filter (·.key == requiredQubitsAttr) =
            [.pair requiredQubitsAttr (some (toString required))] ∧
          (c'.program.func f).attributes.filter (·.key == requiredResultsAttr) =
            [.pair requiredResultsAttr (some (toString measured.length))]) ∧
      (∀ id ∈ accepted, ∀ count, c.program.AllocatesQubits id count → ∃ (a : InstrId) (start : Nat),
        Granted settings (startOf c) order (·.qubits) id a count start ∧
        c.program.GivesWay c'.program id a (.ofInt 64 start) ∧ start + count ≤ required ∧
        ∀ load ∈ accepted, ∀ bits index, c.program.ReadsElement load (.instr id) bits index → ∃ x,
          ⟨load, some x⟩ ∈ (lastOf settings s c).scheduled ∧
          c.program.GivesWay c'.program load x (.ofInt bits (start + index)) ∧
          (0 ≤ index ∧ index < count → start + index < required)) ∧
      ∀ (k : Nat) id, measured[k]? = some id → ∃ a,
        Granted settings (startOf c) order (·.results) id a 1 k ∧
        c.program.GivesWay c'.program id a (.ofInt 64 k) := by
  obtain ⟨run, c₁, n, q, hwent, -, -, hspliced, -, hq⟩ := applyRules_went hp h
  have hattends := hwent.attends
  obtain ⟨hqubits, hresults⟩ := hunused
  obtain ⟨hmeasured, hnumbered⟩ := hattends.numbered hp (.refl hp) hresults.free
  have hnone : (startOf c).extra.results.nextId = 0 := hresults.none
  rw [hnone, Nat.zero_add] at hmeasured
  intro order accepted measured
  refine ⟨(lastOf settings s c).extra.qubits.nextId,
    (hattends.extents Work.moves_qubits hp hqubits.sound).1.extent_word, fun f hf => ?_,
    fun id hid count hcall => ?_, fun k id hk => ?_⟩
  · have hnoted := hwent.noted hp hpath hspliced hf
    have hresults := hnoted.results hnotes.2
    rw [show (lastOf settings s c).extra.results.nextId = measured.length from hmeasured] at hresults
    rw [hq]
    exact ⟨hnoted.qubits hnotes.1, hresults⟩
  · obtain ⟨xs, ys, heir, answer, along, horder, hwork⟩ := hattends.of_acceptedIn hp hid
    have htrial : Attends settings (startOf c) (xs ++ id :: ys) := horder ▸ hattends
    obtain ⟨a, start, -, -, hgranted⟩ := htrial.granted_qubits hp hwork hcall
    rw [← horder] at hgranted
    obtain ⟨name, -, hcalls⟩ := hcall.calls
    have hgives := (applyRules_pointer hp h hgranted.scheduled hgranted.pointer).2 hcalls.lt
    rw [hwidth] at hgives
    obtain ⟨hextent, -⟩ : start + count ≤ (lastOf settings s c).extra.qubits.nextId ∧ _ :=
      hgranted.below Work.moves_qubits hp hattends hqubits.sound
    refine ⟨a, start, hgranted, hgives, hextent, fun load hload bits index hreads => ?_⟩
    obtain ⟨x, hscheduled, hgives⟩ :=
      applyRules_element hp hwidth hqubits.sound h hgranted hcall hload hreads
    exact ⟨x, hscheduled, hgives, fun hindex => by omega⟩
  · obtain ⟨a, hgranted⟩ := hnumbered k id hk
    rw [hnone, Nat.zero_add] at hgranted
    have hcalls := of_decide_eq_true (List.mem_filter.mp (List.mem_of_getElem? hk)).2
    have hgives := (applyRules_pointer hp h hgranted.scheduled hgranted.pointer).2 (Program.Calls.lt hcalls)
    rw [hwidth] at hgives
    exact ⟨a, hgranted, hgives⟩

/-- A qubit and an element of an array are measured. -/
def measuring : Program where
  name := "measuring"
  namedTypes := [("Array", none), ("Qubit", none), ("Result", none)]
  functions := #[
    ⟨"__quantum__rt__qubit_allocate", .ptr (.named "Qubit"), [], false, none, none, [], [], false⟩,
    ⟨"__quantum__rt__qubit_allocate_array", .ptr (.named "Array"), [⟨none, .int 64⟩], false, none, none,
      [], [], false⟩,
    ⟨"__quantum__rt__array_get_element_ptr_1d", .ptr (.int 8),
      [⟨none, .ptr (.named "Array")⟩, ⟨none, .int 64⟩], false, none, none, [], [], false⟩,
    ⟨"__quantum__qis__m__body", .ptr (.named "Result"), [⟨none, .ptr (.named "Qubit")⟩], false, none, none,
      [], [], false⟩,
    ⟨"Main", .void, [], false, none, none, [.pair "EntryPoint" none], [⟨0⟩], false⟩]
  blocks := #[⟨some "entry", some ⟨4⟩, [⟨0⟩, ⟨1⟩, ⟨2⟩, ⟨3⟩, ⟨4⟩, ⟨5⟩, ⟨6⟩, ⟨7⟩], false⟩]
  instrs := #[
    ⟨.call .none, .ptr (.named "Qubit"), [.func ⟨0⟩], some "a", some ⟨0⟩, false⟩,
    ⟨.call .none, .ptr (.named "Array"), [.int 64 2, .func ⟨1⟩], some "r", some ⟨0⟩, false⟩,
    ⟨.call .none, .ptr (.int 8), [.instr ⟨1⟩, .int 64 1, .func ⟨2⟩], some "p", some ⟨0⟩, false⟩,
    ⟨.cast .bitcast, .ptr (.ptr (.named "Qubit")), [.instr ⟨2⟩], some "c", some ⟨0⟩, false⟩,
    ⟨.load none, .ptr (.named "Qubit"), [.instr ⟨3⟩], some "q", some ⟨0⟩, false⟩,
    ⟨.call .none, .ptr (.named "Result"), [.instr ⟨0⟩, .func ⟨3⟩], some "m", some ⟨0⟩, false⟩,
    ⟨.call .none, .ptr (.named "Result"), [.instr ⟨4⟩, .func ⟨3⟩], some "n", some ⟨0⟩, false⟩,
    ⟨.ret, .void, [], none, some ⟨0⟩, false⟩]

theorem applyRules_requiredAddresses_measuring : ∃ stats c required, ∃ x y : InstrId, ∃ start : Nat,
    applyRules ({} : RuleSettings).rules {} {} ⟨measuring, setReuse {} {}⟩ = .ok stats c ∧
    (c.program.func ⟨4⟩).attributes.filter (·.key == requiredQubitsAttr) =
      [.pair requiredQubitsAttr (some (toString required))] ∧
    (c.program.func ⟨4⟩).attributes.filter (·.key == requiredResultsAttr) =
      [.pair requiredResultsAttr (some "2")] ∧
    measuring.GivesWay c.program ⟨4⟩ x (.ofInt 64 (start + 1)) ∧ start + 1 < required ∧
    measuring.GivesWay c.program ⟨6⟩ y (.ofInt 64 1) := by
  obtain ⟨stats, c, hrun, -⟩ := exists_ok
    (r := applyRules ({} : RuleSettings).rules {} {} ⟨measuring, setReuse {} {}⟩) (P := fun _ => True)
    (by decide +kernel)
  have hunused := fun reuse => (Allocator.unused_withCapacity 8 true).setReuse reuse
  have hmeasured : measuredIn measuring ({} : RuleSettings).rules (startOf ⟨measuring, setReuse {} {}⟩)
      (tried {} {} measuring (setReuse {} {})) = [⟨5⟩, ⟨6⟩] := by decide +kernel
  have haccepted : ∀ id ∈ [(⟨1⟩ : InstrId), ⟨4⟩], id ∈ acceptedIn ({} : RuleSettings).rules
      (startOf ⟨measuring, setReuse {} {}⟩) (tried {} {} measuring (setReuse {} {})) := by decide +kernel
  obtain ⟨required, -, hnoted, hqubits, hresults⟩ := applyRules_requiredAddresses {} {}
    (c := ⟨measuring, setReuse {} {}⟩) (by decide +kernel) rfl rfl ⟨rfl, rfl⟩ ⟨hunused _, hunused _⟩ hrun
  rw [hmeasured] at hnoted hresults
  obtain ⟨hq, hr⟩ := hnoted ⟨4⟩ (by decide)
  obtain ⟨a, start, -, -, -, helements⟩ := hqubits ⟨1⟩ (haccepted _ (by decide)) 2
    (.array rfl ⟨rfl, by decide, .func ⟨1⟩, rfl⟩)
  obtain ⟨x, -, hx, hbelow⟩ := helements ⟨4⟩ (haccepted _ (by decide)) 64 1
    ⟨⟨none, rfl⟩, .instr ⟨3⟩, ⟨2⟩, rfl, rfl, rfl, rfl, by decide, .func ⟨2⟩, rfl⟩
  obtain ⟨y, -, hy⟩ := hresults 1 ⟨6⟩ rfl
  exact ⟨stats, c, required, x, y, start, hrun, hq, hr, hx, by omega, hy⟩

end Transform

end QirProfile
