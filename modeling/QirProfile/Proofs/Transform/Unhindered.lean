import QirProfile.Proofs.ExecutionPath
import QirProfile.Transform.Expand

/-!
# Runs that nothing hinders

Calls get copies of their own as far as the walk goes. It passes over a function when the depth of
calls is used up, and leaves a call as it is when it is an invoke, when the callee takes further
arguments or when their number is wrong. `unhindered` says that none of this happens in a run, and
that no entry point is called: it is the same run, made to fail where that happens.
-/

namespace QirProfile

variable {τ α β : Type}

/-! ## 1. Steps that succeed more often -/

/-- Where `x` succeeds, `y` does the same. -/
def Refines (x y : Walk τ α) : Prop :=
  ∀ t a t', x t = .ok a t' → y t = .ok a t'

namespace Walk

theorem refines_refl (x : Walk τ α) : Refines x x := fun _ _ _ h => h

theorem refines_bind {x y : Walk τ α} {f g : α → Walk τ β} (hx : Refines x y)
    (hf : ∀ a, Refines (f a) (g a)) : Refines (x >>= f) (y >>= g) := by
  intro t b t' h
  obtain ⟨a, u, hxt, h⟩ := bind_ok h
  rw [bind_of_ok (hx t a u hxt)]
  exact hf a u b t' h

theorem refines_foldlM {f g : β → α → Walk τ β} (hf : ∀ b a, Refines (f b a) (g b a))
    (as : List α) (b : β) : Refines (as.foldlM f b) (as.foldlM g b) := by
  induction as generalizing b with
  | nil => exact refines_refl _
  | cons a as ih =>
    rw [List.foldlM_cons, List.foldlM_cons]
    exact refines_bind (hf b a) ih

section

variable {limits : WalkLimits} {visit visit' : Visitor τ} {follow follow' : FuncId → Walk τ Bool}
  (hvisit : ∀ v, Refines (visit v) (visit' v)) (hfollow : ∀ f, Refines (follow f) (follow' f))

include hvisit hfollow

theorem visitInstr_refines (f : FuncId) (front : Frontier) (id : InstrId) :
    Refines (visitInstr limits visit follow f front id)
      (visitInstr limits visit' follow' f front id) := by
  unfold visitInstr
  refine refines_bind (refines_refl _) fun p => ?_
  split
  · exact refines_refl _
  refine refines_bind (hvisit _) fun current => ?_
  cases current with
  | none => exact refines_refl _
  | some current =>
    refine refines_bind (refines_refl _) fun p => ?_
    cases current.toInstr?.bind fun call => (p.instr call).calledFunction? with
    | none => exact refines_refl _
    | some callee =>
      exact refines_bind (refines_bind (hfollow callee) fun _ => refines_refl _) fun _ =>
        refines_refl _

theorem visitBlocks_refines (f : FuncId) (fuel : Nat) (front : Frontier) :
    Refines (visitBlocks limits visit follow f fuel front)
      (visitBlocks limits visit' follow' f fuel front) := by
  induction fuel generalizing front with
  | zero => exact refines_refl _
  | succ fuel ih =>
    unfold visitBlocks
    cases front.queue with
    | nil => exact refines_refl _
    | cons b rest =>
      refine refines_bind ?_ ih
      unfold visitBlock
      refine refines_bind (refines_refl _) fun p => ?_
      split
      · exact refines_refl _
      refine refines_bind (hvisit _) fun _ => refines_bind (refines_refl _) fun p => ?_
      exact refines_foldlM (visitInstr_refines hvisit hfollow f) _ _

theorem visitFunction_refines (f : FuncId) :
    Refines (visitFunction limits visit follow f) (visitFunction limits visit' follow' f) := by
  unfold visitFunction
  refine refines_bind (refines_refl _) fun p => ?_
  cases (p.func f).entryBlock? with
  | none => exact refines_refl _
  | some entry =>
    exact refines_bind (hvisit _) fun _ => visitBlocks_refines hvisit hfollow f _ _

end

/-! ## 2. Walks that are nowhere refused -/

/-- A walk that fails where it would be refused because of its depth. -/
def walkFully (limits : WalkLimits) (visit : Visitor τ) : (depth : Nat) → FuncId → Walk τ Bool
  | 0, f => do
    if passesOver (← get) f then return false
    throw (.passFailed "walk" "calls are too deep")
  | depth + 1, f => do
    let s ← get
    if passesOver s f then return false
    set { s with visited := f :: s.visited, doomed := [] }
    visitFunction limits visit (walkFully limits visit depth) f
    eraseDoomed (← get).doomed
    modify fun t => { t with doomed := s.doomed }
    return true

/-- What such a walk does in a function from there on. -/
def walkFullyBody (limits : WalkLimits) (visit : Visitor τ) (depth : Nat) (f : FuncId)
    (doomed : List InstrId) : Walk τ Bool := do
  visitFunction limits visit (walkFully limits visit depth) f
  eraseDoomed (← get).doomed
  modify fun t => { t with doomed := doomed }
  return true

theorem walkFully_zero (limits : WalkLimits) (visit : Visitor τ) (f : FuncId) (t : PathState τ) :
    walkFully limits visit 0 f t = if passesOver t f then .ok false t
      else .error (.passFailed "walk" "calls are too deep") t := by
  unfold walkFully
  rw [get_bind]
  split <;> rfl

theorem walkFully_succ (limits : WalkLimits) (visit : Visitor τ) (depth : Nat) (f : FuncId)
    (t : PathState τ) :
    walkFully limits visit (depth + 1) f t = if passesOver t f then .ok false t
      else walkFullyBody limits visit depth f t.doomed
        { t with visited := f :: t.visited, doomed := [] } := by
  rw [walkFully]
  rw [get_bind]
  split <;> rfl

theorem walkFully_refines {limits : WalkLimits} {visit visit' : Visitor τ}
    (hvisit : ∀ v, Refines (visit v) (visit' v)) (depth : Nat) (f : FuncId) :
    Refines (walkFully limits visit depth f) (walkWithin limits visit' depth f) := by
  induction depth generalizing f with
  | zero =>
    intro t b t' h
    rw [walkFully_zero] at h
    split at h
    · exact h
    · cases h
  | succ depth ih =>
    intro t b t' h
    rw [walkFully_succ] at h
    rw [walkWithin_apply]
    split
    · rwa [if_pos ‹_›] at h
    · rw [if_neg ‹_›] at h
      refine refines_bind (visitFunction_refines hvisit ih f) (fun _ => refines_refl _) _ _ _ h

end Walk

/-! ## 3. Runs -/

namespace Transform

variable {s : TransformSettings}

/-- Whether nothing stands in the way of a copy where a run comes to an instruction: what it calls by
    name has no body, or it is a plain call of a function that is no entry point and takes as many
    arguments as are given. A run does not come to an invoke that says where it goes on: where
    exceptions are ruled out it has been lowered before, and otherwise the run fails. -/
def copyable (entries : List FuncId) (p : Program) (i : Instr) : Bool :=
  match i.calledFunction? with
  | none => true
  | some k => (p.func k).isDeclaration ||
    (i.isCall && !entries.contains k && !(p.func k).varArg &&
      (p.func k).params.length == i.arguments.length)

/-- Turns calls to copies, and fails where something stands in the way. -/
def specialiseFreely (s : TransformSettings) (entries : List FuncId) : Visitor Nat := fun v => do
  let p ← Walk.program
  if v.toInstr?.all fun id => copyable entries p (p.instr id) then specialiseCall s v
  else throw (.passFailed "specialise" "a call cannot be given a copy")

/-- Folds and walks the entry points, and fails where something stands in the way. -/
def expandFreely (s : TransformSettings) (entries : List FuncId) : List FuncId → Walk Nat Unit
  | [] => return ()
  | entry :: rest => do
    _ ← Walk.compile (foldControlFlow (Replacing.controlFlowRules s.assumeNoExcept) entry)
    _ ← Walk.walkFully s.limits (specialiseFreely s entries) s.limits.maxDepth entry
    expandFreely s entries rest

/-- Whether nothing stands in the way of the copies of a program: the depth of calls is nowhere used
    up, no entry point is called, and all calls of defined functions fit their callees. -/
def unhindered (s : TransformSettings) (p : Program) : Bool :=
  match expandFreely s (s.entryPoints p) (s.entryPoints p) { program := p, extra := 0 } with
  | .ok _ _ => true
  | .error _ _ => false

theorem specialiseFreely_refines (entries : List FuncId) (v : Value) :
    Refines (specialiseFreely s entries v) (specialiseCall s v) := by
  intro t a t' h
  unfold specialiseFreely at h
  obtain ⟨_, _, hprogram, h⟩ := bind_ok h
  cases hprogram
  split at h
  · exact h
  · cases h

theorem expandFreely_refines (entries rest : List FuncId) :
    Refines (expandFreely s entries rest) (expandEntries s rest) := by
  induction rest with
  | nil => exact Walk.refines_refl _
  | cons entry rest ih =>
    exact Walk.refines_bind (Walk.refines_refl _) fun _ => Walk.refines_bind
      (Walk.walkFully_refines (specialiseFreely_refines entries) _ entry) fun _ => ih

/-- If nothing hinders a run, it is the one that would fail where something did. -/
theorem expandFreely_of_unhindered {p q : Program} {n : Nat} (h : unhindered s p = true)
    (hq : specialiseCalls s p = .ok n q) : ∃ t, t.program = q ∧ t.extra = n ∧
      expandFreely s (s.entryPoints p) (s.entryPoints p) { program := p, extra := 0 } =
        .ok () t := by
  unfold unhindered at h
  split at h
  · rename_i u t hrun
    refine ⟨t, ?_, ?_, hrun⟩
    all_goals
      unfold specialiseCalls at hq
      rw [expandFreely_refines _ _ _ _ _ hrun] at hq
      cases hq
      rfl
  · cases h

end Transform

end QirProfile
