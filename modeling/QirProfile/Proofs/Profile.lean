import QirProfile.Generator
import QirProfile.Proofs.Cleanup
import QirProfile.Proofs.Transform.QubitAddresses

/-!
# Profiles that are applied again

A profile keeps its addresses from one program to the next. `renew` starts the allocators anew, so a
run should not depend on the programs before it. Two things get past `renew`:

* whether released addresses are handed out again. The transformation sets that itself, so it counts
  only for a run that ends before its transformation;
* the addresses that stand for empty arrays. Their handles belong to a program that is gone, and in
  the next one they are handles of other instructions.

Nothing else does.
-/

namespace QirProfile

/-! ## 1. Allocators as a profile makes them -/

namespace Addresses

/-- Allocators of the capacity that a new profile gives them, whatever was asked of them since. -/
structure Standard (a : Addresses) : Prop where
  qubits : a.qubits.CapacityOf 8 true
  results : a.results.CapacityOf 8 true

theorem standard_new : Standard {} :=
  ⟨⟨rfl, rfl, nofun⟩, ⟨rfl, rfl, nofun⟩⟩

/-- What held of the addresses still holds. -/
def Stays (P : Addresses → Prop) (a b : Addresses) : Prop :=
  P a → P b

instance (P : Addresses → Prop) : IsPreorder Addresses (Stays P) where
  refl _ h := h
  trans _ _ _ h₁ h₂ h := h₂ (h₁ h)

theorem Standard.reset {a : Addresses} (h : a.Standard) :
    a.qubits.reset = ({} : Allocator).setReuse a.qubits.reuse ∧
      a.results.reset = ({} : Allocator).setReuse a.results.reuse := by
  unfold Allocator.reset
  rw [h.qubits.initial, h.qubits.may, h.results.initial, h.results.may]
  exact ⟨rfl, rfl⟩

end Addresses

namespace Allocator

theorem behind_allocate (name : String) (count : Nat) (a : Allocator) :
    behind (allocate name count) a = a.serve (.allocate name count) := by
  simp only [behind, serve, Request.perform, Functor.map, EStateM.map]
  cases allocate name count a <;> rfl

theorem behind_release (address : Nat) (a : Allocator) :
    behind (release address) a = a.serve (.release address) := by
  simp only [behind, serve, Request.perform, Functor.map, EStateM.map]
  cases release address a <;> rfl

end Allocator

open Addresses (Stays Standard)

namespace Replacing

theorem behind_onQubits {α : Type} (f : Allocating α) (s : RuleState Addresses) :
    behind (onQubits f) s = { s with extra.qubits := behind f s.extra.qubits } := by
  unfold behind onQubits
  cases f s.extra.qubits <;> rfl

theorem behind_onResults {α : Type} (f : Allocating α) (s : RuleState Addresses) :
    behind (onResults f) s = { s with extra.results := behind f s.extra.results } := by
  unfold behind onResults
  cases f s.extra.results <;> rfl

theorem steady_standard : Steady (fun {α} =>
    Always (α := α) (Order.Preimage RuleState.extra (Stays Standard))) where
  toSequential := sequential_always
  edit {_ e} _ s h := by
    unfold behind Replacing.edit
    cases e s.program <;> exact h
  modify {f} hf _ s h := by
    change (f s).extra.Standard
    exact ⟨(hf s).1 ▸ h.qubits, (hf s).2 ▸ h.results⟩
  allocateResult name count s h := by
    rw [behind_onResults, Allocator.behind_allocate]
    exact ⟨h.qubits, Allocator.capacityOf_serve h.results _⟩
  allocateQubits name count s h := by
    rw [behind_onQubits, Allocator.behind_allocate]
    exact ⟨Allocator.capacityOf_serve h.qubits _, h.results⟩
  releaseQubits address s h := by
    rw [behind_onQubits, Allocator.behind_release]
    exact ⟨Allocator.capacityOf_serve h.qubits _, h.results⟩

end Replacing

/-! ## 2. Runs of passes -/

namespace Transform

/-- The addresses of a walk that tries rules stay standard. -/
abbrev RuleRun.StaysStandard : PathState RuleRun → PathState RuleRun → Prop :=
  Order.Preimage PathState.extra (Order.Preimage RuleRun.addresses (Stays Standard))

theorem standard_tryRules (settings : RuleSettings) (id : InstrId) :
    Always RuleRun.StaysStandard (tryRules settings.rules id) := by
  intro t
  have hvisit := Replacing.steady_standard.applyFirst settings id
    { program := t.program, scheduled := t.extra.scheduled, extra := t.extra.addresses }
  unfold behind at hvisit ⊢
  unfold tryRules
  dsimp only
  revert hvisit
  cases Replacing.applyFirst settings.rules id _ <;> exact fun h => h

theorem standard_tryAll (settings : RuleSettings) (s : TransformSettings) (entries : List FuncId) :
    Always RuleRun.StaysStandard (tryAll settings.rules s entries) := by
  have hseq : Sequential (fun {α} => Always (ε := CompileError) (α := α) RuleRun.StaysStandard) :=
    sequential_always
  have hprogram := Walk.sequential_program hseq
  have heverywhere : ∀ fs, Always RuleRun.StaysStandard (tryEverywhere settings.rules fs) := by
    intro fs
    induction fs with
    | nil => exact hseq.pure _
    | cons f rest ih =>
      refine hseq.bind hprogram fun p => ?_
      exact hseq.bind (hseq.forM (standard_tryRules settings) _) fun _ => ih
  have hvisitor : ∀ v, Always RuleRun.StaysStandard (ruleVisitor settings.rules v) := fun v =>
    hseq.bind (hseq.optionForM (standard_tryRules settings) _) fun _ => hseq.pure _
  unfold tryAll
  split
  · refine hseq.bind (hseq.forM (fun entry => ?_) _) fun _ => ?_
    · exact hseq.discard (Walk.always_walk hvisitor entry)
    · exact fun t => id
  · exact hseq.bind hprogram fun p => heverywhere _

theorem standard_compile {α : Type} (f : Compile α) :
    Always (Order.Preimage Compilation.addresses (Stays Standard)) (compile f) := by
  intro c
  unfold behind compile
  cases f c.program <;> exact id

theorem standard_run (settings : RuleSettings) (s : TransformSettings) :
    Always (Order.Preimage Compilation.addresses (Stays Standard)) (run settings.rules s) := by
  have hseq : Sequential (fun {α} => Always (ε := CompileError) (α := α)
    (Order.Preimage Compilation.addresses (Stays Standard))) := sequential_always
  have hrules : ∀ entries, Always (Order.Preimage Compilation.addresses (Stays Standard))
      (runRules settings.rules s entries) := by
    intro entries c
    have htry := standard_tryAll settings s entries
      { program := c.program, extra := { addresses := c.addresses } }
    unfold behind at htry ⊢
    unfold runRules
    revert htry
    cases tryAll settings.rules s entries _ <;> exact id
  have happly : ∀ stats, Always (Order.Preimage Compilation.addresses (Stays Standard))
      (applyRules settings.rules s stats) := by
    intro stats
    refine hseq.bind hseq.get fun c => hseq.bind (hrules _) fun r => ?_
    exact hseq.bind (standard_compile _) fun _ => hseq.pure _
  rw [run_eq]
  refine hseq.bind (fun c h => ?_) fun _ => hseq.bind ?_ happly
  · change (setReuse s c.addresses).Standard
    exact ⟨⟨h.qubits.initial, h.qubits.may, nofun⟩, ⟨h.results.initial, h.results.may, nofun⟩⟩
  · refine hseq.bind ?_ fun cloned => ?_
    · split
      · exact standard_compile _
      · exact hseq.pure _
    · split
      · exact standard_compile _
      · exact hseq.pure _

end Transform

namespace Pass

/-- A pass that only edits the program. -/
def IsEdit (x : Pass) : Prop :=
  ∃ name e, x = ofEdit name e

/-- The passes before a transformation. -/
def prior (s : TransformSettings) : List Pass :=
  if s.simplifyPriorTransform then [constantFolding, deadInstructionElimination] else []

/-- The passes of a profile with the default components: maybe a transformation with what comes
    before it, and then edits. -/
inductive Default : List Pass → Prop where
  | edits {later : List Pass} (h : ∀ x ∈ later, x.IsEdit) : Default later
  | transforming {rules : RuleSettings} {s : TransformSettings} {later : List Pass}
      (h : ∀ x ∈ later, x.IsEdit) :
      Default (prior s ++ transformation rules.rules s :: later)

theorem isEdit_prior (s : TransformSettings) : ∀ x ∈ prior s, x.IsEdit := by
  unfold prior
  split
  · simp only [List.forall_mem_cons, List.not_mem_nil]
    exact ⟨⟨_, _, rfl⟩, ⟨_, _, rfl⟩, nofun⟩
  · nofun

theorem isEdit_cleanup (s : CleanupSettings) : ∀ x ∈ cleanup s, x.IsEdit := by
  intro x hx
  obtain ⟨⟨on, y⟩, hy, hon⟩ := List.mem_filterMap.mp hx
  have hedit : y.IsEdit := by
    simp only [List.mem_cons, List.not_mem_nil, Prod.mk.injEq, or_false] at hy
    obtain ⟨-, rfl⟩ | ⟨-, rfl⟩ | ⟨-, rfl⟩ | ⟨-, rfl⟩ := hy <;> exact ⟨_, _, rfl⟩
  dsimp only at hon
  split at hon
  · cases hon
    exact hedit
  · cases hon

theorem runAll_append (xs ys : List Pass) (s : PassState) :
    runAll (xs ++ ys) s = (do runAll xs; runAll ys : Running Unit) s := by
  induction xs generalizing s with
  | nil => rfl
  | cons x xs ih =>
    change (x.step >>= fun _ => runAll (xs ++ ys)) s =
      ((x.step >>= fun _ => runAll xs) >>= fun _ => runAll ys) s
    simp only [bind, EStateM.bind]
    cases x.step s with
    | ok u t => exact ih t
    | error e t => rfl

theorem sequential_runAll {P : ∀ {α : Type}, Running α → Prop} (hP : Sequential P)
    {xs : List Pass} (hxs : ∀ x ∈ xs, P x.step) : P (runAll xs) := by
  induction xs with
  | nil => exact hP.pure _
  | cons x xs ih =>
    have hrest := ih fun y hy => hxs y (List.mem_cons_of_mem x hy)
    exact hP.bind (hxs x List.mem_cons_self) fun _ => hrest

theorem addresses_step {x : Pass} (hx : x.IsEdit) :
    Always (Order.Preimage PassState.addresses (· = ·)) x.step := by
  obtain ⟨name, e, rfl⟩ := hx
  intro s
  change s.addresses = (behind (Running.edit e) s).addresses
  unfold behind Running.edit
  cases e s.program <;> rfl

theorem standard_step {rules : RuleSettings} {s : TransformSettings} :
    Always (Order.Preimage PassState.addresses (Stays Standard))
      (transformation rules.rules s).step := by
  have hseq : Sequential (fun {α} => Always (ε := CompileError) (α := α)
    (Order.Preimage PassState.addresses (Stays Standard))) := sequential_always
  refine hseq.bind hseq.get fun _ => hseq.bind ?_ fun stats => fun t => id
  intro t
  have hrun := Transform.standard_run rules s ⟨t.program, t.addresses⟩
  unfold behind at hrun ⊢
  unfold Running.transform
  revert hrun
  cases Transform.run rules.rules s _ <;> exact id

theorem standard_runAll {xs : List Pass} (h : Default xs) :
    Always (Order.Preimage PassState.addresses (Stays Standard)) (runAll xs) := by
  have hedit : ∀ x : Pass, x.IsEdit →
      Always (Order.Preimage PassState.addresses (Stays Standard)) x.step := by
    intro x hx s hs
    rw [← addresses_step hx s]
    exact hs
  refine sequential_runAll sequential_always ?_
  cases h with
  | edits h => exact fun x hx => hedit x (h x hx)
  | @transforming rules s later h =>
    intro x hx
    rcases List.mem_append.mp hx with hx | hx
    · exact hedit x (isEdit_prior s x hx)
    rcases List.mem_cons.mp hx with rfl | hx
    · exact standard_step
    · exact hedit x (h x hx)

end Pass

/-! ## 3. Runs that differ in the reuse of addresses -/

/-- The same state with released addresses handed out again, or not. -/
def PassState.withReuse (s : PassState) (qubits results : Bool) : PassState :=
  { s with
    addresses :=
      { s.addresses with
        qubits := s.addresses.qubits.setReuse qubits
        results := s.addresses.results.setReuse results } }

namespace Pass

theorem transformation_withReuse (rules : List (Rule Addresses)) (s : TransformSettings)
    (t : PassState) (x y : Bool) :
    (transformation rules s).step (t.withReuse x y) = (transformation rules s).step t := by
  have hrun : Transform.run rules s ⟨t.program, (t.withReuse x y).addresses⟩ =
      Transform.run rules s ⟨t.program, t.addresses⟩ := by
    rw [Transform.run_eq]
    rfl
  have hstep : Running.transform (Transform.run rules s) (t.withReuse x y) =
      Running.transform (Transform.run rules s) t := by
    unfold Running.transform
    rw [show (t.withReuse x y).program = t.program from rfl, hrun]
    cases Transform.run rules s ⟨t.program, t.addresses⟩ <;> rfl
  change (Running.transform (Transform.run rules s) >>= fun stats => Running.leave .statistics stats)
      (t.withReuse x y) =
    (Running.transform (Transform.run rules s) >>= fun stats => Running.leave .statistics stats) t
  simp only [bind, EStateM.bind, hstep]

theorem step_ofEdit (name : String) {e : Edit Unit} {t : PassState} {q : Program}
    (h : e t.program = .ok () q) : (ofEdit name e).step t = .ok () { t with program := q } := by
  change Running.edit e t = _
  unfold Running.edit
  rw [h]

theorem runAll_prior (s : TransformSettings) {t : PassState} (ht : t.program.Sound) :
    ∃ u : PassState, ∀ x y, runAll (prior s) (t.withReuse x y) = .ok () (u.withReuse x y) := by
  unfold prior
  split
  · obtain ⟨q, hfold, hq⟩ := Cleanup.foldAll_ok t.program
    obtain ⟨r, hdead⟩ := Cleanup.eliminateDead_ok (hq ht).1
    refine ⟨{ t with program := r }, fun x y => ?_⟩
    have hfirst := step_ofEdit "ConstantFolding" (t := t.withReuse x y) hfold
    have hsecond := step_ofEdit "DeadInstructionElimination"
      (t := { t.withReuse x y with program := q }) hdead
    exact (bind_of_ok hfirst _).trans (bind_of_ok hsecond _)
  · exact ⟨t, fun x y => rfl⟩

theorem runAll_withReuse (rules : List (Rule Addresses)) (s : TransformSettings) (later : List Pass)
    {t : PassState} (ht : t.program.Sound) (x y : Bool) :
    runAll (prior s ++ transformation rules s :: later) (t.withReuse x y) =
      runAll (prior s ++ transformation rules s :: later) t := by
  obtain ⟨u, hprior⟩ := runAll_prior s ht
  have hsame : ∀ x y, runAll (prior s ++ transformation rules s :: later) (t.withReuse x y) =
      runAll (transformation rules s :: later) u := by
    intro x y
    rw [runAll_append, bind_of_ok (hprior x y)]
    change ((transformation rules s).step >>= fun _ => runAll later) (u.withReuse x y) =
      ((transformation rules s).step >>= fun _ => runAll later) u
    simp only [bind, EStateM.bind, transformation_withReuse]
  exact (hsame x y).trans (hsame t.addresses.qubits.reuse t.addresses.results.reuse).symm

end Pass

/-! ## 4. Programs one after the other -/

namespace Profile

/-- The profile after it was applied to a program, whatever came of it. -/
def applied (p : Profile) (program : Program) (folder : Folder) : Profile :=
  p.resume (behind p.apply (p.start program folder))

/-- The profile after it was applied to programs one after the other. -/
def afterAll (p : Profile) (history : List (Program × Folder)) : Profile :=
  history.foldl (fun q (program, folder) => q.applied program folder) p

/-- A profile in use: it is the new one but for its addresses, which are standard, and for its
    findings. Without a transformation the addresses are those of the new profile. -/
structure InUse (p q : Profile) : Prop where
  same : q = { p with addresses := q.addresses, findings := q.findings }
  standard : q.addresses.Standard
  untouched : (∀ x ∈ p.passes, x.IsEdit) → q.addresses = {}

theorem always_verifyProgram {R : PassState → PassState → Prop} [IsPreorder PassState R] :
    Always R verifyProgram := by
  refine sequential_always.bind sequential_always.get fun s => ?_
  split
  · exact sequential_always.pure _
  · exact always_throw _

theorem always_apply {R : PassState → PassState → Prop} [IsPreorder PassState R] {p : Profile}
    (hrenew : ∀ s, R s (renew s)) (hpasses : Always R (Pass.runAll p.passes)) :
    Always R p.apply := by
  have hseq : Sequential (fun {α} => Always (ε := CompileError) (α := α) R) := sequential_always
  unfold apply
  refine hseq.bind hrenew fun _ => ?_
  split
  · refine hseq.bind always_verifyProgram fun _ => ?_
    exact hseq.bind hpasses fun _ => always_verifyProgram
  · exact hseq.bind hpasses fun _ => hseq.pure _

theorem InUse.applied {p q : Profile} (hp : Pass.Default p.passes) (h : InUse p q)
    (program : Program) (folder : Folder) : InUse p (q.applied program folder) := by
  have hpasses : q.passes = p.passes := by
    rw [h.same]
  refine ⟨?_, ?_, ?_⟩
  · rw [Profile.applied, h.same]
    rfl
  · have hkept : Always (Order.Preimage PassState.addresses (Stays Standard)) q.apply := by
      apply always_apply
      · intro s hs
        exact ⟨⟨hs.qubits.initial, hs.qubits.may, nofun⟩,
          ⟨hs.results.initial, hs.results.may, nofun⟩⟩
      · rw [hpasses]
        exact Pass.standard_runAll hp
    exact hkept (q.start program folder) h.standard
  · intro hedits
    -- without a transformation, the addresses are only renewed, and new ones stay new
    have hkept : Always (Order.Preimage PassState.addresses (Stays (· = {}))) q.apply := by
      apply always_apply
      · intro s hs
        change s.addresses = {} at hs
        rw [renew, hs]
        rfl
      · rw [hpasses]
        refine Pass.sequential_runAll sequential_always fun x hx s hs => ?_
        rw [← Pass.addresses_step (hedits x hx) s]
        exact hs
    exact hkept (q.start program folder) (h.untouched hedits)

theorem inUse_afterAll {p q : Profile} (hp : Pass.Default p.passes) (h : InUse p q)
    (history : List (Program × Folder)) : InUse p (q.afterAll history) := by
  induction history generalizing q with
  | nil => exact h
  | cons x history ih => exact ih (h.applied hp x.1 x.2)

end Profile

namespace Generator

theorem components_standard {g : Generator} (h : standard = .ok g) :
    g.components = [transformation rulesOf, cleanup] := by
  have hadd : ∀ {g g' : Generator} {c : Component}, g.addComponent c = .ok g' →
      g'.components = g.components ++ [c] := by
    intro g g' c h
    obtain ⟨s, -, h⟩ := except_bind_ok.mp h
    cases h
    rfl
  unfold standard at h
  obtain ⟨g₀, hbare, h⟩ := except_bind_ok.mp h
  obtain ⟨s, -, h⟩ := except_bind_ok.mp h
  obtain ⟨g₁, htransform, hcleanup⟩ := except_bind_ok.mp h
  rw [hadd hcleanup, hadd htransform]
  obtain ⟨s₀, -, hnone⟩ := except_bind_ok.mp hbare
  cases hnone
  rfl

theorem newProfile_standard {g : Generator} {settings : Settings} {name : String} {debug : Bool}
    {p : Profile} (hg : standard = .ok g)
    (h : newProfile { g with settings := settings } name debug = .ok p) :
    p.debug = debug ∧ p.addresses = {} ∧ p.findings = {} ∧ Pass.Default p.passes := by
  unfold newProfile at h
  obtain ⟨passes, hpasses, h⟩ := except_bind_ok.mp h
  obtain ⟨v, -, h⟩ := except_bind_ok.mp h
  cases h
  refine ⟨rfl, rfl, rfl, ?_⟩
  rw [components_standard hg] at hpasses
  obtain ⟨first, hfirst, hpasses⟩ := except_bind_ok.mp hpasses
  obtain ⟨rest, hrest, hpasses⟩ := except_bind_ok.mp hpasses
  obtain ⟨later, hlater, hrest⟩ := except_bind_ok.mp hrest
  cases hpasses
  cases hrest
  have hedits : ∀ x ∈ later ++ [], x.IsEdit := by
    rw [List.append_nil]
    unfold passesOf at hlater
    split at hlater
    · obtain ⟨values, -, hlater⟩ := except_bind_ok.mp hlater
      cases hlater
      exact Pass.isEdit_cleanup _
    · cases hlater
      nofun
  unfold passesOf at hfirst
  split at hfirst
  · obtain ⟨values, -, hfirst⟩ := except_bind_ok.mp hfirst
    obtain ⟨rules, hrules, hfirst⟩ := except_bind_ok.mp hfirst
    obtain ⟨ruleValues, -, hrules⟩ := except_bind_ok.mp hrules
    cases hrules
    cases hfirst
    dsimp only
    rw [List.append_assoc]
    exact .transforming hedits
  · cases hfirst
    exact .edits hedits

end Generator

/-! ## 5. What earlier programs leave behind -/

namespace Profile

theorem renew_start {p q : Profile} (hp : p.addresses = {}) (h : InUse p q)
    (hempty : q.addresses.emptyArrays = []) (m : Program) (folder : Folder) :
    renew (q.start m folder) = (renew (p.start m folder)).withReuse q.addresses.qubits.reuse
      q.addresses.results.reuse := by
  obtain ⟨hqubits, hresults⟩ := h.standard.reset
  simp only [start, renew, PassState.withReuse, hqubits, hresults, hempty, hp]
  rfl

/-- A qubit array of the given size is allocated and released. -/
def allocating (size : Int) : Program where
  name := "allocating"
  namedTypes := [("Array", none)]
  functions := #[
    ⟨"__quantum__rt__qubit_allocate_array", .ptr (.named "Array"), [⟨none, .int 64⟩], false, none,
      none, [], [], false⟩,
    ⟨"__quantum__rt__qubit_release_array", .void, [⟨none, .ptr (.named "Array")⟩], false, none, none,
      [], [], false⟩,
    ⟨"Main", .void, [], false, none, none, [.pair "EntryPoint" none], [⟨0⟩], false⟩]
  blocks := #[⟨some "entry", some ⟨2⟩, [⟨0⟩, ⟨1⟩, ⟨2⟩], false⟩]
  instrs := #[
    ⟨.call .none, .ptr (.named "Array"), [.int 64 size, .func ⟨0⟩], some "a", some ⟨0⟩, false⟩,
    ⟨.call .none, .void, [.instr ⟨0⟩, .func ⟨1⟩], none, some ⟨0⟩, false⟩,
    ⟨.ret, .void, [], none, some ⟨0⟩, false⟩]

theorem exists_newProfile {P : Profile → Prop} [DecidablePred P]
    (h : (Generator.standard.bind (·.newProfile "generic" false)).toOption.any
      (fun p => decide (P p)) = true) :
    ∃ g p, Generator.standard = .ok g ∧ g.newProfile "generic" false = .ok p ∧ P p := by
  obtain ⟨p, hp, h⟩ := exists_value h
  obtain ⟨g, hg, hp⟩ := except_bind_ok.mp hp
  exact ⟨g, p, hg, hp, h⟩

/-- A profile treats a program as if it were the first one, unless an address of an empty array is
    left from those before. -/
theorem apply_after_history {g : Generator} {settings : Settings} {name : String} {debug : Bool}
    {p : Profile} (hg : Generator.standard = .ok g)
    (hp : Generator.newProfile { g with settings := settings } name debug = .ok p)
    (history : List (Program × Folder))
    (hempty : (p.afterAll history).addresses.emptyArrays = []) {m : Program} (hm : m.Sound)
    (hverified : debug = true → m.verify = .ok ()) (folder : Folder) :
    (p.afterAll history).apply ((p.afterAll history).start m folder) =
      p.apply (p.start m folder) := by
  obtain ⟨rfl, haddresses, -, hpasses⟩ := Generator.newProfile_standard hg hp
  have hnew : InUse p p := ⟨rfl, haddresses ▸ Addresses.standard_new, fun _ => haddresses⟩
  have huse := inUse_afterAll hpasses hnew history
  generalize hq : p.afterAll history = q at hempty huse ⊢
  have hsame : q.apply = p.apply := by
    rw [huse.same]
    rfl
  have hstart := renew_start haddresses huse hempty m folder
  -- behind `renew` only the reuse of addresses can differ, and the passes do not see it
  have hrun : Pass.runAll p.passes (renew (q.start m folder)) =
      Pass.runAll p.passes (renew (p.start m folder)) := by
    have huntouched := huse.untouched
    generalize p.passes = passes at hpasses huntouched ⊢
    cases hpasses with
    | edits h =>
      have hreset : renew (q.start m folder) = renew (p.start m folder) := by
        simp only [start, renew, huntouched h, haddresses]
      rw [hreset]
    | transforming h =>
      rw [hstart]
      exact Pass.runAll_withReuse _ _ _ hm _ _
  have hverify : ∀ r : Profile, p.debug = true →
      verifyProgram (renew (r.start m folder)) = .ok () (renew (r.start m folder)) := by
    intro r hdebug
    unfold verifyProgram
    rw [bind_of_ok (rfl : (get : Running PassState) (renew (r.start m folder)) = .ok _ _)]
    rw [show (renew (r.start m folder)).program = m from rfl, hverified hdebug]
    rfl
  rw [hsame]
  unfold apply
  rw [bind_of_ok (rfl : (modify renew : Running PUnit) (q.start m folder) = .ok _ _),
    bind_of_ok (rfl : (modify renew : Running PUnit) (p.start m folder) = .ok _ _)]
  cases hdebug : p.debug with
  | false =>
    simp only [Bool.false_eq_true, if_false, bind, EStateM.bind, hrun]
  | true =>
    simp only [if_true]
    rw [bind_of_ok (hverify q hdebug), bind_of_ok (hverify p hdebug)]
    simp only [bind, EStateM.bind, hrun]

theorem apply_after_history_arrays : ∃ g p, Generator.standard = .ok g ∧
    g.newProfile "generic" false = .ok p ∧
    (p.afterAll [(allocating 2, {})]).addresses.qubits.nextId = 2 ∧
    (p.afterAll [(allocating 2, {})]).apply
      ((p.afterAll [(allocating 2, {})]).start (allocating 3) {}) =
    p.apply (p.start (allocating 3) {}) := by
  obtain ⟨g, p, hg, hp, hnext, hempty⟩ := exists_newProfile (P := fun p =>
    (p.afterAll [(allocating 2, {})]).addresses.qubits.nextId = 2 ∧
      (p.afterAll [(allocating 2, {})]).addresses.emptyArrays = []) (by decide +kernel)
  exact ⟨g, p, hg, hp, hnext,
    apply_after_history hg hp [(allocating 2, {})] hempty (by decide +kernel) nofun {}⟩

/-- The release of an array is taken for that of an empty array in the program before, and its
    addresses are kept. -/
theorem empty_array_outlives_its_program : ∃ g p, Generator.standard = .ok g ∧
    g.newProfile "generic" false = .ok p ∧ (allocating 2).Sound ∧ (allocating 2).verify = .ok () ∧
    let q := p.afterAll [(allocating 0, {})]
    q.addresses.emptyArrays = [⟨3⟩] ∧
    (behind p.apply (p.start (allocating 2) {})).addresses.qubits.live = [] ∧
    (behind q.apply (q.start (allocating 2) {})).addresses.qubits.live = [⟨"a", 0, 2⟩] ∧
    q.apply (q.start (allocating 2) {}) ≠ p.apply (p.start (allocating 2) {}) := by
  obtain ⟨g, p, hg, hp, hempty, hfresh, hlater⟩ := exists_newProfile (P := fun p =>
    let q := p.afterAll [(allocating 0, {})]
    q.addresses.emptyArrays = [⟨3⟩] ∧
    (behind p.apply (p.start (allocating 2) {})).addresses.qubits.live = [] ∧
    (behind q.apply (q.start (allocating 2) {})).addresses.qubits.live = [⟨"a", 0, 2⟩])
    (by decide +kernel)
  have hproblems : (allocating 2).problems = [] := by decide +kernel
  refine ⟨g, p, hg, hp, by decide +kernel, ?_, hempty, hfresh, hlater, fun hsame => ?_⟩
  · unfold Program.verify
    rw [hproblems]
  · unfold behind at hfresh hlater
    rw [hsame, hfresh] at hlater
    cases hlater

end Profile

end QirProfile
