import QirProfile.Proofs.Cleanup.DeadInstructions
import QirProfile.Proofs.Cleanup.InlinedAddresses
import QirProfile.Proofs.Profile

/-!
# Running the clean-up again

The clean-up writes static addresses as constants, folds, removes what is dead and then what is not
called. Each step leaves behind nothing of the kind it removes, and no later step brings such a
thing back, but for one: where an address is made of a sum, the sum folds when the addresses have
been written already. So the clean-up leaves a static address behind, and a second run finds it.
-/

namespace QirProfile

namespace Cleanup

open Program Transform
open Relation (ReflTransGen)

variable {p q r : Program} {c f : FuncId} {id i : InstrId} {v : Value} {fs : List FuncId}

/-! ## 1. Static addresses -/

theorem inlineAddresses_workable (hp : p.Workable) : ∃ q, inlineAddresses p = .ok () q ∧
    q.Workable ∧ StaticFree q ∧ (ConvertsFoldable q → ConvertsFoldable p) := by
  obtain ⟨q, hq, hsteps, hfree⟩ := inlineAddresses_steps hp.sound
  obtain ⟨hworkable, hconverts⟩ := inlineSteps_workable hp hsteps
  exact ⟨q, hq, hworkable, hfree, hconverts⟩

theorem inlineAddresses_of_staticFree (hp : p.Sound) (h : StaticFree p) :
    inlineAddresses p = .ok () p := by
  obtain ⟨q, hq, hsteps, -⟩ := inlineAddresses_steps hp
  rwa [inlineSteps_of_staticFree h hsteps] at hq

/-! ## 2. Constants -/

/-- No address is made of a constant, nor of what may become one. -/
structure Lasting (p : Program) : Prop where
  free : StaticFree p
  firm : ¬ ConvertsFoldable p

theorem Lasting.foldAway (h : Lasting p) (hflat : FlatConstants p) (hp : p.Sound)
    (hv : p.fold? id = some v) (hq : p.foldAway id v = .ok q) : Lasting q := by
  obtain ⟨hlive, rfl⟩ := foldAway_ok.mp hq
  have hpruned := Pruned.giveWay hp hlive v
  have hgone := gaveWay_drop (v := v) hp hlive
  have hsame : ∀ i ∈ attachedInstrs ((p.replaceUses (.instr id) v).dropInstr id), ∀ w,
      converted? (((p.replaceUses (.instr id) v).dropInstr id).instr i) = some w →
      i ∈ attachedInstrs p ∧ converted? (p.instr i) = some w := by
    intro i hi w hw
    obtain ⟨hin, hilive⟩ := hpruned.mem_attachedInstrs.mp hi
    obtain ⟨u, hu, ⟨rfl, -⟩ | ⟨-, rfl⟩⟩ := converted?_cases hflat hgone hilive hw
    · exact absurd ⟨i, hin, id, hu, mayFold_of_fold? hv⟩ h.firm
    · exact ⟨hin, hu⟩
  constructor
  · intro i hi w hw
    obtain ⟨hin, hold⟩ := hsame i hi w hw
    exact h.free i hin w hold
  · rintro ⟨i, hi, j, hj, hfolds⟩
    obtain ⟨hin, hold⟩ := hsame i hi _ hj
    rw [(hgone.kinds j).1] at hfolds
    exact h.firm ⟨i, hin, j, hold, hfolds⟩

theorem Lasting.foldConstants {n : Nat} (hp : p.Workable) (h : Lasting p)
    (hq : p.foldConstants c = .ok (q, n)) : Lasting q := by
  refine (foldRounds_carries (P := fun q => FoldsInside c p q ∧ Lasting q)
    (fun _ hr => hr.1.neat.sound) (fun q r id v hr hid hv haway => ?_)
    ⟨.refl hp.neat hp.flat c, h⟩ hq).2
  exact ⟨hr.1.foldAway hid hv haway, hr.2.foldAway hr.1.flat hr.1.neat.sound hv haway⟩

/-- Nothing that is attached folds. -/
def Folded (p : Program) : Prop :=
  ∀ i ∈ attachedInstrs p, p.fold? i = none

theorem fold?_congr (h : q.instr i = p.instr i) : q.fold? i = p.fold? i := by
  unfold Program.fold?
  rw [h]

theorem foldEach_folds (hp : p.Workable) (hfs : fs.Nodup)
    (hlive : ∀ f ∈ fs, (p.func f).erased = false) :
    ∃ q, (fs.forM fun f => discard (Edit.tryMake (·.foldConstants f)) : Edit Unit) p = .ok () q ∧
      q.Workable ∧ Pruned p q ∧ (Lasting p → Lasting q) ∧
      (∀ g, g ∉ fs → (p.func g).erased = false → SameBody p q g) ∧
      ∀ f ∈ fs, ∀ i ∈ q.instrsOf f, q.fold? i = none := by
  induction fs generalizing p with
  | nil => exact ⟨p, rfl, hp, .refl hp.sound, id, fun g _ _ => .refl p g, nofun⟩
  | cons f fs ih =>
    obtain ⟨hf, hfs⟩ := List.nodup_cons.mp hfs
    obtain ⟨p₁, n, hfold, -⟩ := p.foldConstants_ok f
    have hinside := (FoldsInside.refl hp.neat hp.flat f).foldRounds hfold
    have hp₁ : p₁.Workable := ⟨hinside.neat, hinside.flat⟩
    obtain ⟨q, hrest, hq, hpruned, hlasting, hothers, hdone⟩ := ih hp₁ hfs fun g hg =>
      hinside.pruned.func g ▸ hlive g (List.mem_cons_of_mem f hg)
    refine ⟨q, (bind_of_ok (foldOne_ok hfold) _).trans hrest, hq, hinside.pruned.trans hpruned,
      fun h => hlasting (h.foldConstants hp hfold), fun g hg hglive => ?_,
      List.forall_mem_cons.mpr ⟨fun i hi => ?_, hdone⟩⟩
    · obtain ⟨hgf, hgfs⟩ := List.ne_and_not_mem_of_not_mem_cons hg
      exact (hinside.others g hgf hglive).trans
        (hothers g hgfs (hinside.pruned.func g ▸ hglive))
    · have hbody := hothers f hf (hinside.pruned.func f ▸ hlive f List.mem_cons_self)
      rw [hbody.instrsOf] at hi
      rw [fold?_congr (hbody.instr i hi)]
      exact foldRounds_fixed hp.sound (Nat.lt_succ_self _) hfold i hi

theorem foldAll_folds (hp : p.Workable) : ∃ q, foldAll p = .ok () q ∧ q.Sound ∧ Folded q ∧
    (Lasting p → Lasting q) := by
  obtain ⟨q, hq, hworkable, hpruned, hlasting, -, hdone⟩ := foldEach_folds hp p.nodup_liveFunctions
    fun f hf => mem_liveFunctions.mp hf
  refine ⟨q, hq, hworkable.sound, fun i hi => ?_, hlasting⟩
  obtain ⟨f, hf, hin⟩ := List.mem_flatMap.mp hi
  exact hdone f (hpruned.liveFunctions ▸ hf) i hin

theorem foldAll_of_folded (h : Folded p) : foldAll p = .ok () p := by
  have hall : ∀ fs : List FuncId, fs ⊆ p.liveFunctions →
      (fs.forM fun f => discard (Edit.tryMake (·.foldConstants f)) : Edit Unit) p = .ok () p := by
    intro fs hfs
    induction fs with
    | nil => rfl
    | cons f fs ih =>
      have hfold : p.foldConstants f = .ok (p, 0) := foldConstants_of_none fun i hi =>
        h i (List.mem_flatMap.mpr ⟨f, hfs List.mem_cons_self, hi⟩)
      exact (bind_of_ok (foldOne_ok hfold) _).trans (ih (List.subset_of_cons_subset hfs))
  exact hall p.liveFunctions (List.Subset.refl _)

/-! ## 3. Dead instructions -/

theorem eliminateDead_thins (hp : p.Sound) : ∃ q, eliminateDead p = .ok () q ∧ Thinned p q ∧
    ∀ i ∈ attachedInstrs q, isDead q i = false := by
  obtain ⟨q, hq, heliminates, hnone⟩ :=
    eliminateRounds_eliminates (.refl hp) (Nat.lt_succ_self (attachedInstrs p).length)
  exact ⟨q, hq, heliminates.thinned, hnone⟩

theorem eliminateDead_of_none (h : ∀ i ∈ attachedInstrs p, isDead p i = false) :
    eliminateDead p = .ok () p := by
  have hnone : (attachedInstrs p).filter (isDead p) = [] :=
    List.filter_eq_nil_iff.mpr fun i hi => Bool.eq_false_iff.mp (h i hi)
  unfold eliminateDead
  rw [get_bind, eliminateRounds, get_bind, hnone]
  rfl

theorem Thinned.folded (h : Thinned p q) (hp : Folded p) : Folded q := fun i hi => by
  obtain ⟨hin, hlive⟩ := h.pruned.mem_attachedInstrs.mp hi
  rw [fold?_congr (h.instr i hlive)]
  exact hp i hin

theorem Thinned.staticFree (h : Thinned p q) (hp : StaticFree p) : StaticFree q := fun i hi => by
  obtain ⟨hin, hlive⟩ := h.pruned.mem_attachedInstrs.mp hi
  rw [h.instr i hlive]
  exact hp i hin

/-! ## 4. Declarations -/

/-- `q` is `p` without some declarations. -/
structure Stripped (fs : List FuncId) (p q : Program) : Prop where
  sound : q.Sound
  blocks : q.blocks = p.blocks
  instrs : q.instrs = p.instrs
  globals : q.globals = p.globals
  erased : ∀ f ∈ fs, (q.func f).erased = true
  func : ∀ f, f ∉ fs → q.func f = p.func f

theorem eraseDeclarations_strips (hp : p.Sound) (hfs : fs.Nodup)
    (hdeclared : ∀ f ∈ fs, (p.func f).erased = false ∧ (p.func f).blocks = []) :
    ∃ q, (fs.forM fun f => Edit.attempt (·.eraseFunction f) : Edit Unit) p = .ok () q ∧
      Stripped fs p q := by
  induction fs generalizing p with
  | nil => exact ⟨p, rfl, hp, rfl, rfl, rfl, nofun, fun _ _ => rfl⟩
  | cons f fs ih =>
    obtain ⟨hf, hfs⟩ := List.nodup_cons.mp hfs
    obtain ⟨hlive, hnone⟩ := hdeclared f List.mem_cons_self
    have hdrop : p.dropFunction f = p.updateFunc f ({ · with erased := true }) := by
      rw [Program.dropFunction, hnone]
      rfl
    have hsound : (p.dropFunction f).Sound := (sound_dropFunction hp).1
    have herase : Edit.attempt (·.eraseFunction f) p = .ok () (p.dropFunction f) :=
      attempt_ok.mpr ((eraseFunction_ok hp).mpr ⟨hlive, rfl⟩)
    have hgone : ((p.dropFunction f).func f).erased = true := by
      rw [hdrop, func_updateFunc_self (func_lt_of_live hlive)]
    have hothers : ∀ g, f ≠ g → (p.dropFunction f).func g = p.func g := fun g hg => by
      rw [hdrop, func_updateFunc_ne hg]
    obtain ⟨q, hrest, hq⟩ := ih hsound hfs fun g hg => by
      rw [hothers g fun heq => hf (heq ▸ hg)]
      exact hdeclared g (List.mem_cons_of_mem f hg)
    refine ⟨q, (bind_of_ok herase _).trans hrest, hq.sound, ?_, ?_, ?_, ?_,
      fun g hg => ?_⟩
    · rw [hq.blocks, hdrop]
      rfl
    · rw [hq.instrs, hdrop]
      rfl
    · rw [hq.globals, hdrop]
      rfl
    · exact List.forall_mem_cons.mpr ⟨hq.func f hf ▸ hgone, hq.erased⟩
    · obtain ⟨hgf, hgfs⟩ := List.ne_and_not_mem_of_not_mem_cons hg
      rw [hq.func g hgfs, hothers g (Ne.symm hgf)]

theorem mem_unusedDeclarations : f ∈ unusedDeclarations p ↔ (p.func f).erased = false ∧
    (p.func f).blocks = [] ∧ p.hasUses (.func f) = false := by
  simp [unusedDeclarations, mem_liveFunctions, Func.isDeclaration]

namespace Stripped

variable (h : Stripped (unusedDeclarations p) p q)

include h

theorem instr (i : InstrId) : q.instr i = p.instr i := by
  unfold Program.instr
  rw [h.instrs]

theorem hasUses (v : Value) : q.hasUses v = p.hasUses v := by
  unfold Program.hasUses
  rw [h.instrs, h.globals]

theorem mem_attachedInstrs : i ∈ attachedInstrs q ↔ i ∈ attachedInstrs p := by
  have hlisted : ∀ f, f ∉ unusedDeclarations p → q.instrsOf f = p.instrsOf f := by
    intro f hf
    unfold instrsOf block
    rw [h.func f hf, h.blocks]
  simp only [attachedInstrs, List.mem_flatMap, mem_liveFunctions]
  constructor
  · rintro ⟨f, hf, hi⟩
    have hkept : f ∉ unusedDeclarations p := fun hmem => by
      rw [h.erased f hmem] at hf
      cases hf
    exact ⟨f, h.func f hkept ▸ hf, hlisted f hkept ▸ hi⟩
  · rintro ⟨f, hf, hi⟩
    have hkept : f ∉ unusedDeclarations p := fun hmem => by
      rw [instrsOf, (mem_unusedDeclarations.mp hmem).2.1] at hi
      cases hi
    exact ⟨f, (h.func f hkept).symm ▸ hf, (hlisted f hkept).symm ▸ hi⟩

theorem unusedDeclarations_eq : unusedDeclarations q = [] := by
  refine List.eq_nil_iff_forall_not_mem.mpr fun f hf => ?_
  obtain ⟨hlive, hnone, hunused⟩ := mem_unusedDeclarations.mp hf
  have hkept : f ∉ unusedDeclarations p := fun hmem => by
    rw [h.erased f hmem] at hlive
    cases hlive
  rw [h.func f hkept] at hlive hnone
  exact hkept (mem_unusedDeclarations.mpr ⟨hlive, hnone, h.hasUses (.func f) ▸ hunused⟩)

end Stripped

theorem stripUnused_strips (hp : p.Sound) :
    ∃ q, stripUnused p = .ok () q ∧ Stripped (unusedDeclarations p) p q := by
  refine eraseDeclarations_strips hp (p.nodup_liveFunctions.filter _) fun f hf => ?_
  obtain ⟨hlive, hnone, -⟩ := mem_unusedDeclarations.mp hf
  exact ⟨hlive, hnone⟩

theorem stripUnused_of_none (h : unusedDeclarations p = []) : stripUnused p = .ok () p := by
  unfold stripUnused
  rw [get_bind, h]
  rfl

/-! ## 5. The clean-up -/

/-- A program in which nothing folds, nothing is dead and no declaration is unused. -/
structure Tidy (p : Program) : Prop where
  sound : p.Sound
  folded : Folded p
  dead : ∀ i ∈ attachedInstrs p, isDead p i = false
  used : unusedDeclarations p = []

theorem Stripped.tidy (h : Stripped (unusedDeclarations p) p q) (hfolded : Folded p)
    (hdead : ∀ i ∈ attachedInstrs p, isDead p i = false) : Tidy q where
  sound := h.sound
  folded i hi := fold?_congr (h.instr i) ▸ hfolded i (h.mem_attachedInstrs.mp hi)
  dead i hi := by
    have hsame : isDead q i = isDead p i := by
      unfold isDead
      rw [h.instr, h.hasUses]
    exact hsame ▸ hdead i (h.mem_attachedInstrs.mp hi)
  used := h.unusedDeclarations_eq

theorem Stripped.staticFree (h : Stripped (unusedDeclarations p) p q) (hp : StaticFree p) :
    StaticFree q := fun i hi => by
  rw [h.instr]
  exact hp i (h.mem_attachedInstrs.mp hi)

theorem runAll_cleanup {s : PassState} {q₁ q₂ q₃ q₄ : Program}
    (h₁ : inlineAddresses s.program = .ok () q₁) (h₂ : foldAll q₁ = .ok () q₂)
    (h₃ : eliminateDead q₂ = .ok () q₃) (h₄ : stripUnused q₃ = .ok () q₄) :
    Pass.runAll (Pass.cleanup {}) s = .ok () { s with program := q₄ } := by
  have hfirst := Pass.step_ofEdit "InlineStaticAddresses" (t := s) h₁
  have hsecond := Pass.step_ofEdit "ConstantFolding" (t := { s with program := q₁ }) h₂
  have hthird := Pass.step_ofEdit "DeadInstructionElimination" (t := { s with program := q₂ }) h₃
  have hfourth := Pass.step_ofEdit "StripUnusedDeclarations" (t := { s with program := q₃ }) h₄
  exact (bind_of_ok hfirst _).trans ((bind_of_ok hsecond _).trans
    ((bind_of_ok hthird _).trans (bind_of_ok hfourth _)))

theorem Tidy.cleanup {s : PassState} (h : Tidy s.program) (hfree : StaticFree s.program) :
    Pass.runAll (Pass.cleanup {}) s = .ok () s :=
  runAll_cleanup (inlineAddresses_of_staticFree h.sound hfree) (foldAll_of_folded h.folded)
    (eliminateDead_of_none h.dead) (stripUnused_of_none h.used)

theorem cleanup_removes_address {s : PassState} (hp : s.program.Sound)
    (h : ¬ StaticFree s.program) : Pass.runAll (Pass.cleanup {}) s ≠ .ok () s := by
  obtain ⟨q₁, hinline, hsteps, hfree⟩ := inlineAddresses_steps hp
  have hne : q₁ ≠ s.program := fun heq => h (heq ▸ hfree)
  obtain ⟨i, hi, hgone⟩ := inlineSteps_removed hp hsteps hne
  obtain ⟨q₂, hfold, hevolves⟩ := foldAll_ok q₁
  obtain ⟨hq₂, hburies⟩ := hevolves (inlineSteps_pruned hp hsteps).sound
  obtain ⟨q₃, hdead, hthinned, -⟩ := eliminateDead_thins hq₂
  obtain ⟨q₄, hstrip, hstripped⟩ := stripUnused_strips hthinned.sound
  rw [runAll_cleanup hinline hfold hdead hstrip]
  intro hsame
  have hq₄ : q₄ = s.program := congrArg PassState.program (EStateM.Result.ok.inj hsame).2
  have hlive := hp.live_of_attached hi
  rw [← hq₄, hstripped.instr] at hlive
  have hlate := hthinned.pruned.live i hlive
  have hlt := instr_lt_of_live (hp.live_of_attached hi)
  rw [hburies.erasedInstr i (Nat.lt_of_lt_of_le hlt (inlineSteps_buries hp hsteps).instrs) hgone]
    at hlate
  cases hlate

/-- The clean-up leaves nothing to do but for static addresses, and these only where an address was
    made of something that folds. -/
theorem cleanup_tidies {s : PassState} (hp : s.program.Sound) (hverify : s.program.verify = .ok ())
    (hflat : FlatConstants s.program) :
    ∃ t : PassState, Pass.runAll (Pass.cleanup {}) s = .ok () t ∧ Tidy t.program ∧
      (Pass.runAll (Pass.cleanup {}) t = .ok () t ↔ StaticFree t.program) ∧
      (¬ ConvertsFoldable s.program → StaticFree t.program) := by
  have hworkable : s.program.Workable :=
    ⟨(verify_ok.mp hverify).neat hp (hflat.flatOperands hp), hflat⟩
  obtain ⟨q₁, hinline, hq₁, hfree, hconverts⟩ := inlineAddresses_workable hworkable
  obtain ⟨q₂, hfold, hq₂, hfolded, hlasting⟩ := foldAll_folds hq₁
  obtain ⟨q₃, hdead, hthinned, hnone⟩ := eliminateDead_thins hq₂
  obtain ⟨q₄, hstrip, hstripped⟩ := stripUnused_strips hthinned.sound
  have htidy : Tidy q₄ := hstripped.tidy (hthinned.folded hfolded) hnone
  refine ⟨{ s with program := q₄ }, runAll_cleanup hinline hfold hdead hstrip, htidy,
    ⟨fun hsame => ?_, fun hq₄ => htidy.cleanup hq₄⟩, fun hfirm => ?_⟩
  · by_contra hstatic
    exact cleanup_removes_address htidy.sound hstatic hsame
  · have hq₂ := (hlasting ⟨hfree, fun h => hfirm (hconverts h)⟩).free
    exact hstripped.staticFree (hthinned.staticFree hq₂)

/-- A call with an address made of the given value, after a sum. One of the two declarations is
    called. -/
def addressing (v : Value) : Program where
  name := "addressing"
  functions := #[
    ⟨"Main", .void, [], false, none, none, [], [⟨0⟩], false⟩,
    ⟨"f", .void, [⟨none, .ptr (.int 8)⟩], false, none, none, [], [], false⟩,
    ⟨"g", .void, [], false, none, none, [], [], false⟩]
  blocks := #[⟨some "entry", some ⟨0⟩, [⟨0⟩, ⟨1⟩, ⟨2⟩, ⟨3⟩], false⟩]
  instrs := #[
    ⟨.binary .add, .int 64, [.int 64 1, .int 64 2], some "x", some ⟨0⟩, false⟩,
    ⟨.cast .inttoptr, .ptr (.int 8), [v], some "q", some ⟨0⟩, false⟩,
    ⟨.call .none, .void, [.instr ⟨1⟩, .func ⟨1⟩], none, some ⟨0⟩, false⟩,
    ⟨.ret, .void, [], none, some ⟨0⟩, false⟩]

theorem operands_addressing (v : Value) (i : InstrId) :
    ((addressing v).instr i).operands ⊆ [v, .int 64 1, .int 64 2, .instr ⟨1⟩, .func ⟨1⟩] := by
  obtain ⟨i⟩ := i
  match i with
  | 0 | 1 | 2 | 3 => simp [addressing, Program.instr]
  | i + 4 =>
    have hbeyond : (addressing v).instr ⟨i + 4⟩ = .tombstone := instr_of_le (Nat.le_add_left 4 i)
    rw [hbeyond]
    exact List.nil_subset _

theorem flatConstants_addressing (hv : v.Flat) : FlatConstants (addressing v) := by
  refine ⟨fun i _ u hu => List.forall_mem_cons.mpr ⟨hv, ?_⟩ u (operands_addressing v i hu),
    fun g u hu => by cases hu⟩
  simp only [List.forall_mem_cons]
  exact ⟨Value.flat_int 64 1, Value.flat_int 64 2, Value.flat_of_isLocal rfl, Value.flat_func ⟨1⟩,
    nofun⟩

theorem cleanup_tidies_addressing : ∃ t : PassState,
    Pass.runAll (Pass.cleanup {}) { program := addressing (.int 64 5) } = .ok () t ∧
      Tidy t.program ∧ Pass.runAll (Pass.cleanup {}) t = .ok () t ∧
      t.program.instrsOf ⟨0⟩ = [⟨2⟩, ⟨3⟩] ∧ t.program.liveFunctions = [⟨0⟩, ⟨1⟩] ∧
      (t.program.instr ⟨2⟩).operands =
        [.cast .inttoptr (.int 64 5) (.ptr (.int 8)), .func ⟨1⟩] := by
  have hfirm : ¬ ConvertsFoldable (addressing (.int 64 5)) := by
    rintro ⟨i, hi, j, hj, -⟩
    have hnone : ∀ i ∈ attachedInstrs (addressing (.int 64 5)), ∀ v,
        converted? ((addressing (.int 64 5)).instr i) = some v → v = .int 64 5 := by
      decide +kernel
    cases hnone i hi _ hj
  obtain ⟨t, hrun, htidy, hagain, hfree⟩ := cleanup_tidies
    (s := { program := addressing (.int 64 5) }) (by decide +kernel) (by decide +kernel)
    (flatConstants_addressing (Value.flat_int 64 5))
  obtain ⟨_, t', hsame, hresult⟩ := exists_ok
    (r := Pass.runAll (Pass.cleanup {}) { program := addressing (.int 64 5) })
    (P := fun t => t.program.instrsOf ⟨0⟩ = [⟨2⟩, ⟨3⟩] ∧ t.program.liveFunctions = [⟨0⟩, ⟨1⟩] ∧
      (t.program.instr ⟨2⟩).operands = [.cast .inttoptr (.int 64 5) (.ptr (.int 8)), .func ⟨1⟩])
    (by decide +kernel)
  rw [hsame] at hrun
  cases hrun
  exact ⟨t, hsame, htidy, hagain.mpr (hfree hfirm), hresult⟩

/-- The sum folds when addresses have been written already, so the address made of it is left. -/
theorem cleanup_leaves_address : (addressing (.instr ⟨0⟩)).Sound ∧
    (addressing (.instr ⟨0⟩)).verify = .ok () ∧ FlatConstants (addressing (.instr ⟨0⟩)) ∧
    ∃ t : PassState,
      Pass.runAll (Pass.cleanup {}) { program := addressing (.instr ⟨0⟩) } = .ok () t ∧
      ⟨1⟩ ∈ attachedInstrs t.program ∧ (t.program.instr ⟨1⟩).kind = .cast .inttoptr ∧
      (t.program.instr ⟨1⟩).operands = [.int 64 3] ∧
      Pass.runAll (Pass.cleanup {}) t ≠ .ok () t := by
  obtain ⟨_, t, hrun, hsound, hattached, hkind, hoperands⟩ := exists_ok
    (r := Pass.runAll (Pass.cleanup {}) { program := addressing (.instr ⟨0⟩) })
    (P := fun t => t.program.Sound ∧ ⟨1⟩ ∈ attachedInstrs t.program ∧
      (t.program.instr ⟨1⟩).kind = .cast .inttoptr ∧ (t.program.instr ⟨1⟩).operands = [.int 64 3])
    (by decide +kernel)
  refine ⟨by decide +kernel, by decide +kernel,
    flatConstants_addressing (Value.flat_of_isLocal rfl), t, hrun, hattached, hkind, hoperands,
    cleanup_removes_address hsound fun hfree => ?_⟩
  have hnumber : converted? (t.program.instr ⟨1⟩) = some (.int 64 3) := by
    rw [converted?, hkind, hoperands]
    rfl
  cases hfree ⟨1⟩ hattached _ hnumber

end Cleanup

end QirProfile
