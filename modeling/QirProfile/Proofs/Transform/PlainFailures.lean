import QirProfile.Proofs.Transform.QubitAddresses

/-!
# Why the phases before the rules fail

Before the rules are tried, a transformation copies functions, folds them and deletes dead code. None
of that asks an allocator. So what stops these phases is an edit that is refused, an exception edge on
the execution path, or an instruction that would be replaced twice (`PlainFailures`), and never an
allocation.
-/

namespace QirProfile

/-- Errors among which are those of changes that hand out no address. -/
structure PlainFailures (E : CompileError → Prop) : Prop where
  program : ∀ cause, E (.program cause)
  path : ∀ name, E (.exceptionPath name)
  conflict : ∀ id, E (.replacementConflict id)

/-- The error is no refusal of an allocator. -/
def NoRefusal (e : CompileError) : Prop := ∀ cause, e ≠ .allocation cause

theorem plainFailures_noRefusal : PlainFailures NoRefusal where
  program _ _ := CompileError.noConfusion
  path _ _ := CompileError.noConfusion
  conflict _ _ := CompileError.noConfusion

section

variable {E : CompileError → Prop} (hE : PlainFailures E)

include hE

/-! ## 1. Rules of folding -/

namespace Replacing

variable {σ α : Type}

omit hE in
theorem failsWith_program : FailsWith E (program : Replacing σ Program) :=
  sequential_failsWith.bind sequential_failsWith.get fun _ => sequential_failsWith.pure _

theorem failsWith_edit (e : Edit α) : FailsWith E (edit e : Replacing σ α) := by
  intro s err t h
  unfold edit at h
  split at h
  · cases h
  · cases h
    exact hE.program _

omit hE in
theorem failsWith_offer {r : Rule σ} (hr : ∀ f, r.replacer = some f → ∀ id c, FailsWith E (f id c))
    (id : InstrId) (c : Captures) : FailsWith E (offer r id c) := by
  unfold offer
  split
  · exact sequential_failsWith.pure _
  · rename_i f hf
    refine sequential_failsWith.bind sequential_failsWith.get fun _ => ?_
    refine sequential_failsWith.bind (hr f hf id c) fun accepted => ?_
    split
    · exact sequential_failsWith.pure _
    · exact sequential_failsWith.bind (failsWith_modify _) fun _ => sequential_failsWith.pure _

omit hE in
theorem failsWith_applyFirst {rules : List (Rule σ)}
    (hrules : ∀ r ∈ rules, ∀ f, r.replacer = some f → ∀ id c, FailsWith E (f id c))
    (id : InstrId) : FailsWith E (applyFirst rules id) := by
  unfold applyFirst
  refine sequential_failsWith.bind (failsWith_program) fun p => ?_
  split
  · exact sequential_failsWith.pure _
  induction rules with
  | nil => exact sequential_failsWith.pure _
  | cons r rules ih =>
    unfold firstAccepting
    have hrest := ih fun x hx => hrules x (List.mem_cons_of_mem r hx)
    refine sequential_failsWith.bind (failsWith_program) fun p => ?_
    split
    · exact hrest
    · refine sequential_failsWith.bind (failsWith_offer (hrules r List.mem_cons_self) id _)
        fun accepted => ?_
      split
      · exact sequential_failsWith.pure _
      · exact hrest

theorem failsWith_cutEdges (source : Option BlockId) (dropped : BlockId) :
    FailsWith E (source.forM fun b => edit (σ := σ) (Edit.attempt (·.cutEdge dropped b))) :=
  sequential_failsWith.optionForM (fun _ => failsWith_edit hE _) _

theorem failsWith_settleBranch (id : InstrId) (c : Captures) :
    FailsWith E (settleBranch (σ := σ) id c) := by
  unfold settleBranch
  split
  · rename_i cond ifTrue ifFalse _ _ _
    generalize (if cond ≠ 0 then (ifTrue, ifFalse) else (ifFalse, ifTrue)) = arms
    obtain ⟨taken, dropped⟩ := arms
    have hdone : FailsWith E (do scheduleDelete id; return true : Replacing σ Bool) :=
      sequential_failsWith.bind (failsWith_modify _) fun _ => sequential_failsWith.pure _
    refine sequential_failsWith.bind (failsWith_edit hE _) fun _ => ?_
    split
    · refine sequential_failsWith.bind (failsWith_program) fun p => ?_
      exact sequential_failsWith.bind (failsWith_cutEdges hE _ _) fun _ => hdone
    · exact hdone
  · exact sequential_failsWith.pure _

theorem failsWith_invokeToCall (id : InstrId) (c : Captures) :
    FailsWith E (invokeToCall (σ := σ) id c) := by
  unfold invokeToCall
  refine sequential_failsWith.bind (failsWith_program) fun p => ?_
  dsimp only
  split
  · rename_i callee normal unwind _ _
    have hdone : FailsWith E (do scheduleDelete id; return true : Replacing σ Bool) :=
      sequential_failsWith.bind (failsWith_modify _) fun _ => sequential_failsWith.pure _
    refine sequential_failsWith.bind (failsWith_program) fun p => ?_
    refine sequential_failsWith.bind (failsWith_edit hE _) fun call => ?_
    refine sequential_failsWith.bind (failsWith_edit hE _) fun _ => ?_
    refine sequential_failsWith.bind (failsWith_modify _) fun _ => ?_
    split
    · exact sequential_failsWith.bind (failsWith_cutEdges hE _ _) fun _ => hdone
    · exact hdone
  · exact sequential_failsWith.pure _

theorem failsWith_controlFlowRules (assumeNoExcept : Bool) :
    ∀ r ∈ controlFlowRules (σ := σ) assumeNoExcept, ∀ f, r.replacer = some f →
      ∀ id c, FailsWith E (f id c) := by
  intro r hr f hf id c
  unfold controlFlowRules at hr
  rcases List.mem_cons.mp hr with rfl | hr
  · cases hf
    exact failsWith_settleBranch hE id c
  · cases assumeNoExcept with
    | false => cases hr
    | true =>
      obtain rfl := List.mem_singleton.mp hr
      cases hf
      exact failsWith_invokeToCall hE id c

end Replacing

theorem failsWith_compileEdit {α : Type} (e : Edit α) : FailsWith E (Compile.edit e) := by
  intro p err q h
  unfold Compile.edit at h
  split at h
  · cases h
  · cases h
    exact hE.program _

theorem failsWith_carryOut (rs : List Replacement) : FailsWith E (carryOut rs) := by
  unfold carryOut
  split
  · exact failsWith_throw (hE.conflict _)
  · exact failsWith_compileEdit hE _

theorem failsWith_foldControlFlow {rules : List (Rule Unit)}
    (hrules : ∀ r ∈ rules, ∀ f, r.replacer = some f → ∀ id c, FailsWith E (f id c))
    (f : FuncId) : FailsWith E (foldControlFlow rules f) := by
  have hschedule : ∀ ids, FailsWith E (scheduleAll rules ids) := by
    intro ids p err q h
    unfold scheduleAll at h
    dsimp only at h
    split at h
    · cases h
    · rename_i hall
      cases h
      exact sequential_failsWith.forM
        (fun id => sequential_failsWith.discard (Replacing.failsWith_applyFirst hrules id)) ids _ _ _
        hall
  have hrounds : ∀ fuel, FailsWith E (foldRounds rules f fuel) := by
    intro fuel
    induction fuel with
    | zero => exact sequential_failsWith.pure _
    | succ fuel ih =>
      unfold foldRounds
      refine sequential_failsWith.bind (failsWith_compileEdit hE _) fun _ => ?_
      refine sequential_failsWith.bind sequential_failsWith.get fun p => ?_
      refine sequential_failsWith.bind (hschedule _) fun rs => ?_
      split
      · exact sequential_failsWith.pure _
      · refine sequential_failsWith.bind (failsWith_carryOut hE _) fun _ => ?_
        exact sequential_failsWith.bind ih fun _ => sequential_failsWith.pure _
  unfold foldControlFlow
  exact sequential_failsWith.bind sequential_failsWith.get fun p => hrounds _

/-! ## 2. Walks -/

namespace Walk

variable {τ α : Type}

theorem failsWith_edit (e : Edit α) : FailsWith E (edit e : Walk τ α) := by
  intro s err t h
  unfold edit at h
  split at h
  · cases h
  · cases h
    exact hE.program _

omit hE in
theorem failsWith_compile {f : Compile α} (hf : FailsWith E f) :
    FailsWith E (compile f : Walk τ α) := by
  intro s err t h
  unfold compile at h
  split at h
  · cases h
  · rename_i hfail
    cases h
    exact hf _ _ _ hfail

theorem failsWith_eraseDoomed (ids : List InstrId) : FailsWith E (eraseDoomed ids : Walk τ Unit) := by
  induction ids with
  | nil => exact sequential_failsWith.pure _
  | cons id rest ih =>
    unfold eraseDoomed
    refine sequential_failsWith.bind (sequential_program sequential_failsWith) fun p => ?_
    split
    · exact ih
    · exact sequential_failsWith.bind (failsWith_edit hE _) fun _ => ih

theorem failsWith_walk {limits : WalkLimits} {visit : Visitor τ}
    (hvisit : ∀ v, FailsWith E (visit v)) (f : FuncId) : FailsWith E (walk limits visit f) := by
  unfold walk
  generalize limits.maxDepth = depth
  induction depth generalizing f with
  | zero => exact sequential_failsWith.pure _
  | succ depth ih =>
    intro s err t h
    rw [walkWithin_apply] at h
    split at h
    · cases h
    refine sequential_failsWith.bind ?_ (fun _ => ?_) _ err t h
    · refine sequential_visitFunction sequential_failsWith (fun f => hvisit (.func f)) ?_
      exact sequential_visitBlock sequential_failsWith (fun b => hvisit (.block b))
        (sequential_visitInstr sequential_failsWith (fun name => failsWith_throw (hE.path name)) hvisit
          ih f)
    · refine sequential_failsWith.bind sequential_failsWith.get fun u => ?_
      refine sequential_failsWith.bind (failsWith_eraseDoomed hE _) fun _ => ?_
      exact sequential_failsWith.bind (failsWith_modify _) fun _ => sequential_failsWith.pure _

end Walk

/-! ## 3. The phases before the rules -/

namespace Transform

variable (s : TransformSettings)

theorem failsWith_specialiseCall (v : Value) : FailsWith E (specialiseCall s v) := by
  unfold specialiseCall
  split
  swap
  · exact sequential_failsWith.pure _
  rename_i id
  refine sequential_failsWith.bind (Walk.sequential_program sequential_failsWith) fun p => ?_
  dsimp only
  split
  · exact sequential_failsWith.pure _
  rename_i marker callee _
  refine sequential_failsWith.bind (Walk.failsWith_edit hE _) fun copy => ?_
  refine sequential_failsWith.bind (Walk.sequential_program sequential_failsWith) fun p => ?_
  refine sequential_failsWith.bind (Walk.failsWith_edit hE _) fun call => ?_
  refine sequential_failsWith.bind (Walk.failsWith_edit hE _) fun _ => ?_
  refine sequential_failsWith.bind (Walk.failsWith_edit hE _) fun _ => ?_
  refine sequential_failsWith.bind (Walk.failsWith_edit hE _) fun _ => ?_
  refine sequential_failsWith.bind (failsWith_modify _) fun _ => ?_
  refine sequential_failsWith.bind (failsWith_modify _) fun _ => ?_
  refine sequential_failsWith.bind (Walk.failsWith_compile (failsWith_foldControlFlow hE
    (Replacing.failsWith_controlFlowRules hE s.assumeNoExcept) copy)) fun _ => ?_
  refine sequential_failsWith.bind sequential_failsWith.get fun t => ?_
  split
  · exact sequential_failsWith.bind (Walk.failsWith_edit hE _) fun _ => sequential_failsWith.pure _
  · exact sequential_failsWith.pure _

theorem failsWith_specialiseCalls : FailsWith E (specialiseCalls s) := by
  have hentries : ∀ entries, FailsWith E (expandEntries s entries) := by
    intro entries
    induction entries with
    | nil => exact sequential_failsWith.pure _
    | cons entry rest ih =>
      unfold expandEntries
      refine sequential_failsWith.bind (Walk.failsWith_compile (failsWith_foldControlFlow hE
        (Replacing.failsWith_controlFlowRules hE s.assumeNoExcept) entry)) fun _ => ?_
      exact sequential_failsWith.bind
        (Walk.failsWith_walk hE (failsWith_specialiseCall hE s) entry) fun _ => ih
  intro p err q h
  unfold specialiseCalls at h
  split at h
  · cases h
  · rename_i hfail
    cases h
    exact hentries _ _ _ _ hfail

theorem failsWith_markRounds (fuel : Nat) (considered : List FuncId) :
    FailsWith E (markRounds s fuel considered) := by
  have hmark : ∀ v, FailsWith E (mark v) := fun v =>
    sequential_failsWith.bind (failsWith_modify _) fun _ => sequential_failsWith.pure _
  have hroots : ∀ roots, FailsWith E (markRoots s roots) := by
    intro roots
    induction roots with
    | nil => exact sequential_failsWith.pure _
    | cons root rest ih =>
      unfold markRoots
      refine sequential_failsWith.bind (failsWith_modify _) fun _ => ?_
      exact sequential_failsWith.bind (Walk.failsWith_walk hE hmark root) fun _ => ih
  induction fuel generalizing considered with
  | zero => exact sequential_failsWith.pure _
  | succ fuel ih =>
    unfold markRounds
    refine sequential_failsWith.bind sequential_failsWith.get fun t => ?_
    dsimp only
    split
    · exact sequential_failsWith.pure _
    · exact sequential_failsWith.bind (hroots _) fun _ => ih _

theorem failsWith_removeDeadCode (stats : TransformStatistics) :
    FailsWith E (removeDeadCode s stats) := by
  unfold removeDeadCode
  refine sequential_failsWith.bind sequential_failsWith.get fun p => ?_
  split
  · rename_i e herror
    refine failsWith_throw ?_
    unfold activeCode at herror
    split at herror
    · cases herror
    · rename_i hfail
      cases herror
      exact failsWith_markRounds hE s _ _ _ _ _ hfail
  · refine sequential_failsWith.bind (failsWith_compileEdit hE _) fun phis => ?_
    exact sequential_failsWith.bind (failsWith_compileEdit hE _) fun _ => sequential_failsWith.pure _

omit hE in
theorem failsWith_compile {α : Type} {f : Compile α} (hf : FailsWith E f) :
    FailsWith E (compile f) := by
  intro c err c' h
  unfold compile at h
  split at h
  · cases h
  · rename_i hfail
    cases h
    exact hf _ _ _ hfail

/-- The phases before the rules fail for plain reasons only. -/
theorem prepare_failsWith : FailsWith E (prepare s) := by
  unfold prepare
  refine sequential_failsWith.bind ?_ fun cloned => ?_
  · split
    · exact failsWith_compile (failsWith_specialiseCalls hE s)
    · exact sequential_failsWith.pure _
  · split
    · exact failsWith_compile (failsWith_removeDeadCode hE s _)
    · exact sequential_failsWith.pure _

end Transform

end

end QirProfile
