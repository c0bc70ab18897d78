import QirProfile.Proofs.Rule.Careful
import QirProfile.Proofs.Transform.QubitAddresses

/-!
# Rules keep a program verified

Rules are tried on one instruction after the other, along the execution path or everywhere, and then
their schedule is carried out.
-/

namespace QirProfile

namespace Program

variable {names : List String} {rs : List Replacement} {p : Program}

/-! ## 1. Notes on functions -/

theorem sameFrame_updateFunc {g : Func → Func}
    (hg : ∀ f, (g f).blocks = f.blocks ∧ (g f).erased = f.erased ∧ (g f).name = f.name)
    (p : Program) (k : FuncId) : p.SameFrame (p.updateFunc k g) := by
  refine ⟨by simp [Program.updateFunc], rfl, rfl, fun f => ?_, fun _ => ⟨rfl, rfl, rfl⟩,
    fun _ => ⟨rfl, rfl⟩⟩
  rw [func_updateFunc]
  split
  · exact hg (p.func f)
  · exact ⟨rfl, rfl, rfl⟩

theorem AtWork.updateFunc {g : Func → Func} (h : AtWork names rs p) (k : FuncId)
    (hg : ∀ f, (g f).blocks = f.blocks ∧ (g f).erased = f.erased ∧ (g f).name = f.name) :
    AtWork names rs (p.updateFunc k g) := by
  have hframe := sameFrame_updateFunc hg p k
  have hfunc := hframe.func
  refine ⟨h.linked.grow (hframe.evolves h.linked.sound).1 (fun _ _ hi => hi) (fun _ _ hb => hb)
      (fun f hf => (hfunc f).2.1.trans hf)
      (fun f i hf hi => .inl ⟨(hfunc f).2.1.symm.trans hf, hi, rfl, rfl⟩),
    fun f hf b hb => ?_, fun i hi hinvoke => ?_, h.olds, h.news⟩
  · rw [(hfunc f).2.1] at hf
    rw [(hfunc f).1] at hb
    exact (h.order f hf b hb).congr fun _ _ => ⟨rfl, rfl⟩
  · obtain ⟨hdestinations, hcallee⟩ := h.calm i hi hinvoke
    exact ⟨hdestinations, fun f hf => by rw [(hfunc f).2.2]; exact hcallee f hf⟩

end Program

open Program Replacing

namespace Transform

variable {names : List String} {settings : RuleSettings}

theorem annotate_frame (s : TransformSettings) (a : Addresses) (f : Func) :
    (annotate s a f).blocks = f.blocks ∧ (annotate s a f).erased = f.erased ∧
      (annotate s a f).name = f.name := by
  unfold annotate
  dsimp only
  split <;> split <;> exact ⟨rfl, rfl, rfl⟩

theorem working_annotate (s : TransformSettings) (a : Addresses) (entries : List FuncId)
    {rs : List Replacement} {p : Program} (h : AtWork names rs p) :
    AtWork names rs (entries.foldl (·.updateFunc · (annotate s a)) p) := by
  induction entries generalizing p with
  | nil => exact h
  | cons entry rest ih => exact ih (h.updateFunc entry (annotate_frame s a))

/-! ## 2. Trials -/

/-- What a trial of the rules does to the state of a walk. -/
def Tried (names : List String) (t t' : PathState RuleRun) : Prop :=
  t'.doomed = t.doomed ∧ SameKinds t.program t'.program ∧
    (AtWork names t.extra.scheduled t.program → AtWork names t'.extra.scheduled t'.program)

theorem tried_pathRelation (names : List String) : PathRelation (Tried names) where
  preorder :=
    { refl := fun t => ⟨rfl, refl_of SameKinds t.program, id⟩
      trans := fun _ _ _ h₁ h₂ => ⟨h₂.1.trans h₁.1, h₁.2.1.trans h₂.2.1, h₂.2.2 ∘ h₁.2.2⟩ }
  doomed h := h.1
  books h := ⟨rfl, h.2.1, h.2.2⟩

theorem sameKinds_applyFirst {id : InstrId} {b : Bool} {s s' : RuleState Addresses}
    (h : applyFirst settings.rules id s = .ok b s') : SameKinds s.program s'.program := by
  have hkinds := steady_sameKinds.applyFirst settings id s
  unfold behind at hkinds
  rw [h] at hkinds
  exact hkinds

theorem tried_applyFirst (hnames : names = [] ∨ names = settings.removed) {id : InstrId} {b : Bool}
    {t t' : PathState RuleRun} (hdoomed : t'.doomed = t.doomed)
    (hquiet : AtWork names t.extra.scheduled t.program → (t.program.instr id).erased = false →
      t.program.QuietAt settings.removed id)
    (h : applyFirst settings.rules id ⟨t.program, t.extra.scheduled, t.extra.addresses⟩ =
      .ok b ⟨t'.program, t'.extra.scheduled, t'.extra.addresses⟩) : Tried names t t' :=
  ⟨hdoomed, sameKinds_applyFirst h, fun hs =>
    Working.applyFirst (s := ⟨t.program, t.extra.scheduled, t.extra.addresses⟩) hs hnames (hquiet hs)
      h⟩

theorem tried_tryRules (hnames : names = [] ∨ names = settings.removed) {id : InstrId} {u : Unit}
    {t t' : PathState RuleRun}
    (hquiet : AtWork names t.extra.scheduled t.program → (t.program.instr id).erased = false →
      t.program.QuietAt settings.removed id)
    (h : tryRules settings.rules id t = .ok u t') : Tried names t t' := by
  unfold tryRules at h
  dsimp only at h
  split at h
  · rename_i accepted r hr
    cases h
    exact tried_applyFirst hnames rfl hquiet hr
  · cases h

theorem quiet_of_calm {rs : List Replacement} {p : Program} {id : InstrId}
    (h : AtWork settings.removed rs p) (hlive : (p.instr id).erased = false) :
    p.QuietAt settings.removed id := fun hinvoke => (h.calm id hlive hinvoke).2

theorem tried_ruleVisitor (v : Value) :
    Keeps (Tried settings.removed) (ruleVisitor settings.rules v) := by
  intro t a t' h
  rcases ruleVisitor_ok h with ⟨-, rfl⟩ | ⟨id, b, -, hdoomed, happly⟩
  · exact (tried_pathRelation _).preorder.refl _
  · exact tried_applyFirst (.inr rfl) hdoomed quiet_of_calm happly

theorem targets_ok {limits : WalkLimits} (hlimits : limits.assumeNoExcept = false) {name : String}
    {i : Instr} {bs : List BlockId} (h : Walk.targets limits name i = .ok bs) :
    i.kind ≠ .invoke := by
  intro hinvoke
  rw [Walk.targets, hinvoke, hlimits] at h
  cases h

section

variable {τ : Type} {R : PathState τ → PathState τ → Prop} {limits : WalkLimits} {visit : Visitor τ}

/-- The visitor lets walks go on, changes no kinds, and keeps this where it visits no invoke. -/
def KeepsOthers (R : PathState τ → PathState τ → Prop) (visit : Visitor τ) : Prop :=
  ∀ id t a u, (t.program.instr id).erased = false → visit (.instr id) t = .ok a u →
    a.isSome = true ∧ SameKinds t.program u.program ∧ ((t.program.instr id).kind ≠ .invoke → R t u)

theorem visitInstr_endsAtInvokes [IsPreorder (PathState τ) R]
    (hkinds : ∀ {t u}, R t u → SameKinds t.program u.program) (hlimits : limits.assumeNoExcept = false)
    (hvisit : KeepsOthers R visit) (follow : FuncId → Walk τ Bool)
    (hfollow : ∀ f, Keeps R (follow f)) (f : FuncId) (front : Frontier) (id : InstrId) :
    Keeps R (Walk.visitInstr limits visit follow f front id) := by
  intro t _ u h
  rcases Walk.visitInstr_cases h with ⟨-, -, rfl⟩ | ⟨hlive, current, t₁, hvisited, hrest⟩
  · exact refl_of R _
  obtain ⟨hgoes, hsame, hkept⟩ := hvisit id t current t₁ hlive hvisited
  rcases hrest with ⟨rfl, -⟩ | ⟨hfollowed, bs, htargets, -⟩
  · cases hgoes
  have hwalk : R t₁ u := by
    rcases hfollowed with ⟨rfl, -⟩ | ⟨_, g, answer, -, -, hfollowed⟩
    · exact refl_of R _
    · exact hfollow g t₁ answer u hfollowed
  refine trans_of R (hkept ?_) hwalk
  -- kinds are kept from the visit to the end, so control went on from what had been no invoke
  rw [← (hsame.trans (hkinds hwalk)).2 id (instr_lt_of_live hlive)]
  exact targets_ok hlimits htargets

theorem walk_endsAtInvokes (hR : PathRelation R)
    (hkinds : ∀ {t u}, R t u → SameKinds t.program u.program) (hlimits : limits.assumeNoExcept = false)
    (hother : ∀ v, v.toInstr? = none → Keeps R (visit v)) (hvisit : KeepsOthers R visit) (f : FuncId) :
    Keeps R (Walk.walk limits visit f) := by
  have := hR.preorder
  exact Walk.walkWithin_keeps hR (fun f => hother (.func f) rfl) (fun b => hother (.block b) rfl)
    (visitInstr_endsAtInvokes hkinds hlimits hvisit) limits.maxDepth f

end

/-! ## 3. All trials -/

/-- Where a program is to be looked through for invokes of functions whose calls are removed. Along
    the execution path they end the walk, unless it is told to go on. -/
def Guarded (settings : RuleSettings) (s : TransformSettings) (p : Program) : Prop :=
  s.executionPathOnly = true ∧ s.assumeNoExcept = false ∨
    ∀ i, (p.instr i).erased = false → p.QuietAt settings.removed i

theorem tried_tryEverywhere (fs : List FuncId) :
    Keeps (Tried settings.removed) (tryEverywhere settings.rules fs) := by
  have := (tried_pathRelation settings.removed).preorder
  have hseq : Sequential (fun {α} => Keeps (ε := CompileError) (α := α) (Tried settings.removed)) :=
    sequential_keeps
  induction fs with
  | nil => exact hseq.pure _
  | cons f rest ih =>
    unfold tryEverywhere
    refine hseq.bind (Walk.sequential_program hseq) fun p => ?_
    refine hseq.bind (hseq.forM (fun id t u t' h => ?_) _) fun _ => ih
    exact tried_tryRules (.inr rfl) quiet_of_calm h

theorem tried_walks {s : TransformSettings} (entries : List FuncId)
    (h : s.assumeNoExcept = false ∧ names = [] ∨ names = settings.removed) :
    Keeps (Tried names) (entries.forM fun entry =>
      discard (Walk.walk s.limits (ruleVisitor settings.rules) entry)) := by
  have := (tried_pathRelation names).preorder
  have hseq : Sequential (fun {α} => Keeps (ε := CompileError) (α := α) (Tried names)) :=
    sequential_keeps
  refine hseq.forM (fun entry => hseq.discard ?_) entries
  rcases h with ⟨hexcept, rfl⟩ | rfl
  · refine walk_endsAtInvokes (tried_pathRelation []) (fun h => h.2.1) hexcept
      (fun v hv t a u h => ?_) (fun id t a u _ h => ?_) entry
    · rcases ruleVisitor_ok h with ⟨-, rfl⟩ | ⟨id, b, hid, -⟩
      · exact refl_of _ _
      · rw [hv] at hid
        cases hid
    · obtain ⟨_, _, -, hcurrent⟩ := bind_ok h
      obtain ⟨rfl, -⟩ := pure_ok hcurrent
      rcases ruleVisitor_ok h with ⟨hnone, -⟩ | ⟨_, b, hv, hdoomed, happly⟩
      · cases hnone
      · cases hv
        exact ⟨rfl, sameKinds_applyFirst happly, fun hkind =>
          tried_applyFirst (.inl rfl) hdoomed (fun _ _ hinvoke => absurd hinvoke hkind) happly⟩
  · exact Walk.walk_keeps (tried_pathRelation _) tried_ruleVisitor entry

theorem tryAll_working {s : TransformSettings} {entries : List FuncId} {t t' : PathState RuleRun}
    {u : Unit} (hs : s.executionPathOnly = true ∧ s.assumeNoExcept = false ∧ names = [] ∨
      names = settings.removed) (h : tryAll settings.rules s entries t = .ok u t')
    (ht : AtWork names t.extra.scheduled t.program) :
    AtWork names t'.extra.scheduled t'.program := by
  unfold tryAll at h
  split at h
  · obtain ⟨_, t₁, hwalks, h⟩ := bind_ok h
    have hpath : s.assumeNoExcept = false ∧ names = [] ∨ names = settings.removed :=
      hs.imp_left And.right
    have ht₁ := (tried_walks entries hpath t _ t₁ hwalks).2.2 ht
    obtain rfl := modify_ok h
    exact working_annotate s t₁.extra.addresses entries ht₁
  · rename_i heverywhere
    obtain ⟨_, _, hprogram, h⟩ := bind_ok h
    cases hprogram
    obtain rfl := hs.resolve_left fun hpath => heverywhere hpath.1
    exact (tried_tryEverywhere _ t u t' h).2.2 ht

/-- A sound and verified program stays so under the rules, if its invokes have two destinations and
    no rule takes an invoke for a call that is to be removed (`Guarded`). -/
theorem applyRules_verified {s : TransformSettings} {stats stats' : TransformStatistics}
    {c c' : Compilation} (hp : c.program.Sound) (hv : c.program.verify = .ok ())
    (hinvokes : ∀ i, (c.program.instr i).erased = false → (c.program.instr i).kind = .invoke →
      (c.program.instr i).invokeDestinations?.isSome = true)
    (hguarded : Guarded settings s c.program)
    (h : applyRules settings.rules s stats c = .ok stats' c') :
    c'.program.Sound ∧ c'.program.verify = .ok () := by
  obtain ⟨names, hnames, hcalm⟩ : ∃ names, (s.executionPathOnly = true ∧
      s.assumeNoExcept = false ∧ names = [] ∨ names = settings.removed) ∧
      Calm names c.program := by
    rcases hguarded with ⟨hpath, hexcept⟩ | hquiet
    · exact ⟨[], .inl ⟨hpath, hexcept, rfl⟩, fun i hi hinvoke =>
        ⟨hinvokes i hi hinvoke, fun _ _ => List.not_mem_nil⟩⟩
    · exact ⟨settings.removed, .inr rfl, fun i hi hinvoke =>
        ⟨hinvokes i hi hinvoke, hquiet i hi hinvoke⟩⟩
  have hstart := AtWork.start hp (verify_ok.mp hv) hcalm
  unfold applyRules at h
  obtain ⟨_, _, hget, h⟩ := bind_ok h
  obtain ⟨rfl, rfl⟩ := get_ok hget
  obtain ⟨run, c₁, hrun, h⟩ := bind_ok h
  obtain ⟨removed, c₂, hcarry, h⟩ := bind_ok h
  obtain ⟨-, rfl⟩ := pure_ok h
  unfold runRules at hrun
  split at hrun
  · rename_i t htry
    cases hrun
    obtain ⟨q, hq, rfl⟩ := compile_ok.mp hcarry
    obtain ⟨hsound, hverified⟩ := (tryAll_working hnames htry hstart).carryOut hq
    exact ⟨hsound, verify_ok.mpr hverified⟩
  · cases hrun

/-! ## 4. A measurement, and an invoke that is taken for a call -/

/-- A qubit is allocated and measured, and the result is compared with one. -/
def reading : Program where
  name := "reading"
  namedTypes := [("Qubit", none), ("Result", none)]
  functions := #[
    ⟨"__quantum__rt__qubit_allocate", .ptr (.named "Qubit"), [], false, none, none, [], [], false⟩,
    ⟨"__quantum__qis__m__body", .ptr (.named "Result"), [⟨none, .ptr (.named "Qubit")⟩], false, none,
      none, [], [], false⟩,
    ⟨"__quantum__rt__result_get_one", .ptr (.named "Result"), [], false, none, none, [], [], false⟩,
    ⟨"__quantum__rt__result_equal", .int 1,
      [⟨none, .ptr (.named "Result")⟩, ⟨none, .ptr (.named "Result")⟩], false, none, none, [], [],
      false⟩,
    ⟨"Main", .int 1, [], false, none, none, [.pair "EntryPoint" none], [⟨0⟩], false⟩]
  blocks := #[⟨some "entry", some ⟨4⟩, [⟨0⟩, ⟨1⟩, ⟨2⟩, ⟨3⟩, ⟨4⟩], false⟩]
  instrs := #[
    ⟨.call .none, .ptr (.named "Qubit"), [.func ⟨0⟩], some "q", some ⟨0⟩, false⟩,
    ⟨.call .none, .ptr (.named "Result"), [.instr ⟨0⟩, .func ⟨1⟩], some "r", some ⟨0⟩, false⟩,
    ⟨.call .none, .ptr (.named "Result"), [.func ⟨2⟩], some "one", some ⟨0⟩, false⟩,
    ⟨.call .none, .int 1, [.instr ⟨1⟩, .instr ⟨2⟩, .func ⟨3⟩], some "c", some ⟨0⟩, false⟩,
    ⟨.ret, .void, [.instr ⟨3⟩], none, some ⟨0⟩, false⟩]

theorem directed_reading (i : InstrId) : reading.Directed i := by
  intro hlive hinvoke
  have hlt : i.index < 5 := instr_lt_of_live hlive
  obtain ⟨i⟩ := i
  match i with
  | 0 | 1 | 2 | 3 | 4 => cases hinvoke

theorem applyRules_verified_reading : ∃ stats c,
    applyRules ({} : RuleSettings).rules {} {} { program := reading } = .ok stats c ∧
      (c.program.block ⟨0⟩).instrs = [⟨5⟩, ⟨6⟩, ⟨7⟩, ⟨8⟩, ⟨4⟩] ∧ c.program.verify = .ok () := by
  obtain ⟨stats, c, h, hblock⟩ := exists_ok
    (r := applyRules ({} : RuleSettings).rules {} {} { program := reading })
    (P := fun c => (c.program.block ⟨0⟩).instrs = [⟨5⟩, ⟨6⟩, ⟨7⟩, ⟨8⟩, ⟨4⟩]) (by decide +kernel)
  exact ⟨stats, c, h, hblock, (applyRules_verified (c := { program := reading }) (by decide +kernel)
    (by rfl) directed_reading (.inl ⟨rfl, rfl⟩) h).2⟩

/-- A function that is only there to fail is invoked, and its calls are removed. -/
def failing : Program where
  name := "failing"
  functions := #[
    ⟨"__quantum__rt__fail", .void, [⟨none, .ptr (.int 8)⟩], false, none, none, [], [], false⟩,
    ⟨"Main", .void, [], false, none, none, [.pair "EntryPoint" none], [⟨0⟩, ⟨1⟩, ⟨2⟩], false⟩]
  blocks := #[
    ⟨some "entry", some ⟨1⟩, [⟨0⟩], false⟩,
    ⟨some "next", some ⟨1⟩, [⟨1⟩], false⟩,
    ⟨some "failed", some ⟨1⟩, [⟨2⟩], false⟩]
  instrs := #[
    ⟨.invoke, .void, [.null (.ptr (.int 8)), .block ⟨1⟩, .block ⟨2⟩, .func ⟨0⟩], none, some ⟨0⟩, false⟩,
    ⟨.ret, .void, [], none, some ⟨1⟩, false⟩,
    ⟨.ret, .void, [], none, some ⟨2⟩, false⟩]

/-- An invoke goes by the name of what it calls, and its block is left empty. -/
theorem removal_leaves_broken : failing.Sound ∧ failing.verify = .ok () ∧
    ∃ stats c, applyRules ({} : RuleSettings).rules { executionPathOnly := false } {}
        { program := failing } = .ok stats c ∧
      c.program.problems = ["@Main: block %entry is empty"] :=
  ⟨by decide +kernel, by rfl, exists_ok (by decide +kernel)⟩

end Transform

end QirProfile
