import Mathlib.Order.RelClasses
import QirProfile.ExecutionPath
import QirProfile.Proofs.Steps

/-!
# What a walk keeps, and what it does not see

A walk visits values, and between the visits it only keeps its own books: the functions it has
visited, and what is doomed. `walk_keeps` says so for any relation between states that each visit
keeps and that does not look at those books (`PathRelation`). Where visits doom instructions, the
relation must also bear what goes when a function has been walked (`WalkRelation`).

A walk does not look at what its visitor keeps for itself. So two visitors that do the same, one of
them with more to remember, make the same walk (`walk_mimics`).
-/

namespace QirProfile

variable {τ : Type}
variable {limits : WalkLimits} {f : FuncId}

/-! ## 1. What visits keep -/

/-- A preorder of states that a function keeps which is entered and left again: it may have been
    visited before, and what it has doomed for itself goes at its end. -/
structure WalkRelation (R : PathState τ → PathState τ → Prop) : Prop where
  preorder : IsPreorder (PathState τ) R
  leave : ∀ {s t u vs}, R { s with visited := vs, doomed := [] } t →
    Walk.eraseDoomed t.doomed t = .ok () u → R s { u with doomed := s.doomed }

/-- A preorder of states that does not see which functions were visited. What is doomed stays as it
    was, whatever a function in between doomed for itself. -/
structure PathRelation (R : PathState τ → PathState τ → Prop) : Prop where
  preorder : IsPreorder (PathState τ) R
  doomed : ∀ {s t}, R s t → t.doomed = s.doomed
  books : ∀ {s t vs}, R { s with visited := vs, doomed := [] } t → R s { t with doomed := s.doomed }

theorem PathRelation.walkRelation {R : PathState τ → PathState τ → Prop} (hR : PathRelation R) :
    WalkRelation R where
  preorder := hR.preorder
  leave {s t u vs} hkept herase := by
    have hnone : t.doomed = [] := hR.doomed hkept
    rw [hnone] at herase
    obtain ⟨-, rfl⟩ := pure_ok herase
    exact hR.books hkept

namespace Walk

/-- Where a walk goes on from an instruction: to where control goes, if the walk may go there. -/
def goOn (limits : WalkLimits) (f : FuncId) (front : Frontier) (id : InstrId) : Walk τ Frontier := do
  let p ← program
  match targets limits (p.func f).name (p.instr id) with
  | .ok bs => return bs.foldl Frontier.push front
  | .error e => throw e

theorem targets_error {name : String} {i : Instr} {e : CompileError}
    (h : targets limits name i = .error e) : e = .exceptionPath name := by
  unfold targets at h
  split at h
  · cases h
  · cases h
  · split at h <;> cases h
    rfl
  · cases h

theorem goOn_ok {front front' : Frontier} {id : InstrId}
    {t u : PathState τ} (h : goOn limits f front id t = .ok front' u) :
    u = t ∧ ∃ bs, targets limits (t.program.func f).name (t.program.instr id) = .ok bs ∧
      front' = bs.foldl Frontier.push front := by
  unfold goOn at h
  obtain ⟨_, _, hprogram, h⟩ := bind_ok h
  cases hprogram
  cases htargets : targets limits (t.program.func f).name (t.program.instr id) with
  | error e =>
    rw [htargets] at h
    cases h
  | ok bs =>
    rw [htargets] at h
    obtain ⟨rfl, rfl⟩ := pure_ok h
    exact ⟨rfl, bs, rfl, rfl⟩

theorem visitInstr_cases {visit : Visitor τ} {follow : FuncId → Walk τ Bool}
    {front front' : Frontier} {id : InstrId} {t t' : PathState τ}
    (h : visitInstr limits visit follow f front id t = .ok front' t') :
    (t.program.instr id).erased = true ∧ front' = front ∧ t' = t ∨
    (t.program.instr id).erased = false ∧ ∃ current t₁, visit (.instr id) t = .ok current t₁ ∧
      (current = none ∧ front' = front ∧ t' = t₁ ∨
      (t' = t₁ ∧ (∀ i, current = some (.instr i) → (t₁.program.instr i).calledFunction? = none) ∨
        ∃ i k b, current = some (.instr i) ∧ (t₁.program.instr i).calledFunction? = some k ∧
          follow k t₁ = .ok b t') ∧
      ∃ bs, targets limits (t'.program.func f).name (t'.program.instr id) = .ok bs ∧
        front' = bs.foldl Frontier.push front) := by
  unfold visitInstr at h
  obtain ⟨_, _, hprogram, h⟩ := bind_ok h
  cases hprogram
  split at h
  · rename_i herased
    obtain ⟨rfl, rfl⟩ := pure_ok h
    exact .inl ⟨herased, rfl, rfl⟩
  rename_i hlive
  obtain ⟨current, t₁, hvisit, h⟩ := bind_ok h
  refine .inr ⟨Bool.not_eq_true _ ▸ hlive, current, t₁, hvisit, ?_⟩
  cases current with
  | none =>
    obtain ⟨rfl, rfl⟩ := pure_ok h
    exact .inl ⟨rfl, rfl, rfl⟩
  | some v =>
    refine .inr ?_
    obtain ⟨_, _, hprogram, h⟩ := bind_ok h
    cases hprogram
    cases hcallee : v.toInstr?.bind fun call => (t₁.program.instr call).calledFunction? with
    | none =>
      rw [hcallee] at h
      obtain ⟨rfl, hall⟩ := goOn_ok h
      refine ⟨.inl ⟨rfl, ?_⟩, hall⟩
      rintro i ⟨⟩
      exact hcallee
    | some k =>
      rw [hcallee] at h
      obtain ⟨_, t₂, hfollow, h⟩ := bind_ok h
      obtain ⟨b, hfollow⟩ := discard_ok hfollow
      obtain ⟨rfl, hall⟩ := goOn_ok h
      obtain ⟨i, hi, hk⟩ := Option.bind_eq_some_iff.mp hcallee
      cases v <;> cases hi
      exact ⟨.inr ⟨i, k, b, rfl, hk, hfollow⟩, hall⟩

section

variable {P : ∀ {α : Type}, Walk τ α → Prop} (hP : Sequential P) {limits : WalkLimits}
  {visit : Visitor τ} {follow : FuncId → Walk τ Bool}

include hP

theorem sequential_program : P (program : Walk τ Program) :=
  hP.bind hP.get fun _ => hP.pure _

theorem sequential_visitInstr (hthrow : ∀ name, P (throw (.exceptionPath name) : Walk τ Frontier))
    (hvisit : ∀ v, P (visit v)) (hfollow : ∀ f, P (follow f))
    (f : FuncId) (front : Frontier) (id : InstrId) :
    P (visitInstr limits visit follow f front id) := by
  unfold visitInstr
  refine hP.bind (sequential_program hP) fun p => ?_
  split
  · exact hP.pure _
  refine hP.bind (hvisit _) fun current => ?_
  split
  · exact hP.pure _
  refine hP.bind (sequential_program hP) fun p => ?_
  have htargets : ∀ u : PUnit, P (goOn (τ := τ) limits f front id) := by
    intro _
    unfold goOn
    refine hP.bind (sequential_program hP) fun p => ?_
    split
    · exact hP.pure _
    · rename_i herror
      rw [targets_error herror]
      exact hthrow _
  split
  · exact hP.bind (hP.discard (hfollow _)) htargets
  · exact htargets ⟨⟩

theorem sequential_visitBlock (hblock : ∀ b, P (visit (.block b)))
    (hinstr : ∀ front id, P (visitInstr limits visit follow f front id)) (front : Frontier)
    (b : BlockId) : P (visitBlock limits visit follow f front b) := by
  unfold visitBlock
  refine hP.bind (sequential_program hP) fun p => ?_
  split
  · exact hP.pure _
  refine hP.bind (hblock _) fun _ => hP.bind (sequential_program hP) fun p => ?_
  exact hP.foldlM hinstr _ _

theorem sequential_visitBlocks
    (hblock : ∀ front b, P (visitBlock limits visit follow f front b)) (fuel : Nat)
    (front : Frontier) : P (visitBlocks limits visit follow f fuel front) := by
  induction fuel generalizing front with
  | zero => exact hP.pure _
  | succ fuel ih =>
    unfold visitBlocks
    split
    · exact hP.pure _
    · exact hP.bind (hblock _ _) fun front => ih front

theorem sequential_visitFunction (hfunc : ∀ f, P (visit (.func f)))
    (hblock : ∀ front b, P (visitBlock limits visit follow f front b)) :
    P (visitFunction limits visit follow f) := by
  unfold visitFunction
  refine hP.bind (sequential_program hP) fun p => ?_
  split
  · exact hP.pure _
  · exact hP.bind (hfunc f) fun _ => sequential_visitBlocks hP hblock _ _

end

/-- Whether a function is passed over in a state of a walk. -/
def passesOver (t : PathState τ) (f : FuncId) : Bool :=
  (t.program.func f).erased || (t.program.func f).isDeclaration || t.visited.contains f

/-- What a walk does in a function from there on: `doomed` is what was doomed outside. -/
def walkBody (limits : WalkLimits) (visit : Visitor τ) (depth : Nat) (f : FuncId)
    (doomed : List InstrId) : Walk τ Bool := do
  visitFunction limits visit (walkWithin limits visit depth) f
  eraseDoomed (← get).doomed
  modify fun t => { t with doomed := doomed }
  return true

theorem walkWithin_apply (limits : WalkLimits) (visit : Visitor τ) (depth : Nat) (f : FuncId)
    (t : PathState τ) :
    walkWithin limits visit (depth + 1) f t = if passesOver t f then .ok false t
      else walkBody limits visit depth f t.doomed
        { t with visited := f :: t.visited, doomed := [] } := by
  unfold walkWithin passesOver
  rw [get_bind]
  split <;> rfl

theorem walkWithin_keepsLeaving {R : PathState τ → PathState τ → Prop} (hR : WalkRelation R)
    {visit : Visitor τ} (hfunc : ∀ f, Keeps R (visit (.func f)))
    (hblock : ∀ follow, (∀ f, Keeps R (follow f)) → ∀ f front b,
      Keeps R (visitBlock limits visit follow f front b)) (depth : Nat) (f : FuncId) :
    Keeps R (walkWithin limits visit depth f) := by
  have := hR.preorder
  induction depth generalizing f with
  | zero => exact keeps_pure _
  | succ depth ih =>
    intro s b s' h
    rw [walkWithin_apply] at h
    split at h
    · cases h
      exact refl_of R s
    unfold walkBody at h
    obtain ⟨_, s₂, hfun, h⟩ := bind_ok h
    have hkept := sequential_visitFunction sequential_keeps hfunc (hblock _ ih f) _ _ _ hfun
    obtain ⟨t₂, u₂, hget, h⟩ := bind_ok h
    obtain ⟨rfl, rfl⟩ := get_ok hget
    obtain ⟨_, s₃, herase, h⟩ := bind_ok h
    obtain ⟨_, s₄, hmod, h⟩ := bind_ok h
    obtain rfl := modify_ok hmod
    obtain ⟨-, rfl⟩ := pure_ok h
    exact hR.leave hkept herase

theorem walkWithin_keepsBlocks {R : PathState τ → PathState τ → Prop} (hR : PathRelation R)
    {visit : Visitor τ} (hfunc : ∀ f, Keeps R (visit (.func f)))
    (hblock : ∀ follow, (∀ f, Keeps R (follow f)) → ∀ f front b,
      Keeps R (visitBlock limits visit follow f front b)) (depth : Nat) (f : FuncId) :
    Keeps R (walkWithin limits visit depth f) :=
  walkWithin_keepsLeaving hR.walkRelation hfunc hblock depth f

theorem walkWithin_keeps {R : PathState τ → PathState τ → Prop} (hR : PathRelation R)
    {visit : Visitor τ} (hfunc : ∀ f, Keeps R (visit (.func f)))
    (hblock : ∀ b, Keeps R (visit (.block b)))
    (hinstr : ∀ follow, (∀ f, Keeps R (follow f)) → ∀ f front id,
      Keeps R (visitInstr limits visit follow f front id)) (depth : Nat) (f : FuncId) :
    Keeps R (walkWithin limits visit depth f) := by
  have := hR.preorder
  exact walkWithin_keepsBlocks hR hfunc (fun follow hfollow f =>
    sequential_visitBlock sequential_keeps hblock (hinstr follow hfollow f)) depth f

/-- A walk keeps what each visit keeps. -/
theorem walk_keeps {R : PathState τ → PathState τ → Prop} (hR : PathRelation R)
    {visit : Visitor τ} (hvisit : ∀ v, Keeps R (visit v)) (f : FuncId) :
    Keeps R (walk limits visit f) :=
  have := hR.preorder
  walkWithin_keeps hR (fun f => hvisit (.func f)) (fun b => hvisit (.block b))
    (fun _ hfollow => sequential_visitInstr sequential_keeps (fun _ => always_throw _ |>.keeps) hvisit
      hfollow) limits.maxDepth f

theorem always_edit {R : τ → τ → Prop} [IsPreorder τ R] {α : Type} (e : Edit α) :
    Always (Order.Preimage PathState.extra R) (edit e : Walk τ α) := by
  intro s
  unfold behind edit
  cases e s.program <;> exact refl_of R s.extra

theorem always_eraseDoomed {R : τ → τ → Prop} [IsPreorder τ R] (ids : List InstrId) :
    Always (Order.Preimage PathState.extra R) (eraseDoomed ids : Walk τ Unit) := by
  induction ids with
  | nil => exact sequential_always.pure _
  | cons id rest ih =>
    unfold eraseDoomed
    refine sequential_always.bind (sequential_program sequential_always) fun p => ?_
    split
    · exact ih
    · exact sequential_always.bind (always_edit _) fun _ => ih

theorem always_walk {R : τ → τ → Prop} [IsPreorder τ R] {visit : Visitor τ}
    (hvisit : ∀ v, Always (Order.Preimage PathState.extra R) (visit v)) (f : FuncId) :
    Always (Order.Preimage PathState.extra R) (walk limits visit f) := by
  unfold walk
  generalize limits.maxDepth = depth
  induction depth generalizing f with
  | zero => exact sequential_always.pure _
  | succ depth ih =>
    intro s
    unfold behind
    rw [walkWithin_apply]
    by_cases hover : passesOver s f = true
    · rw [if_pos hover]
      exact refl_of R s.extra
    rw [if_neg hover]
    have hbody : Always (Order.Preimage PathState.extra R)
        (walkBody limits visit depth f s.doomed) := by
      refine sequential_always.bind (sequential_visitFunction sequential_always
        (fun f => hvisit (.func f)) (sequential_visitBlock sequential_always (fun b => hvisit (.block b))
          (sequential_visitInstr sequential_always (fun _ => always_throw _) hvisit ih f))) fun _ => ?_
      refine sequential_always.bind sequential_always.get fun t => ?_
      refine sequential_always.bind (always_eraseDoomed t.doomed) fun _ => ?_
      exact sequential_always.bind (fun t => refl_of R t.extra) fun _ => sequential_always.pure true
    exact hbody { s with visited := f :: s.visited, doomed := [] }

end Walk

/-! ## 2. Walks with more to remember -/

/-- The state of a walk whose visitor remembers less. -/
def PathState.map {υ : Type} (g : τ → υ) (t : PathState τ) : PathState υ :=
  ⟨t.program, t.visited, t.doomed, g t.extra⟩

/-- On the image of each state, `y` does what `x` does. -/
def Mimics {υ α : Type} (g : τ → υ) (x : Walk τ α) (y : Walk υ α) : Prop :=
  ∀ t, y (t.map g) = match x t with
    | .ok a t' => .ok a (t'.map g)
    | .error e t' => .error e (t'.map g)

namespace Walk

variable {υ α β : Type} {g : τ → υ}

theorem mimics_pure (a : α) : Mimics g (pure a : Walk τ α) (pure a) := fun _ => rfl

theorem mimics_throw (e : CompileError) : Mimics g (throw e : Walk τ α) (throw e) := fun _ => rfl

theorem mimics_program : Mimics g (program : Walk τ Program) program := fun _ => rfl

theorem mimics_edit (e : Edit α) : Mimics g (edit e : Walk τ α) (edit e) := by
  intro t
  have hprogram : (t.map g).program = t.program := rfl
  unfold edit
  rw [hprogram]
  cases e t.program <;> rfl

theorem mimics_bind {x : Walk τ α} {y : Walk υ α} {f : α → Walk τ β} {h : α → Walk υ β}
    (hx : Mimics g x y) (hf : ∀ a, Mimics g (f a) (h a)) : Mimics g (x >>= f) (y >>= h) := by
  intro t
  have hxt := hx t
  simp only [bind, EStateM.bind]
  cases hr : x t with
  | ok a t' =>
    rw [hr] at hxt
    simp only [hxt]
    exact hf a t'
  | error e t' =>
    rw [hr] at hxt
    simp only [hxt]

theorem mimics_foldlM {f : β → α → Walk τ β} {h : β → α → Walk υ β}
    (hf : ∀ b a, Mimics g (f b a) (h b a)) (as : List α) (b : β) :
    Mimics g (as.foldlM f b) (as.foldlM h b) := by
  induction as generalizing b with
  | nil => exact mimics_pure _
  | cons a as ih =>
    rw [List.foldlM_cons, List.foldlM_cons]
    exact mimics_bind (hf b a) ih

theorem mimics_forM {f : α → Walk τ PUnit} {h : α → Walk υ PUnit} (hf : ∀ a, Mimics g (f a) (h a))
    (as : List α) : Mimics g (as.forM f) (as.forM h) := by
  induction as with
  | nil => exact mimics_pure _
  | cons a as ih => exact mimics_bind (hf a) fun _ => ih

section

variable {limits : WalkLimits} {visit : Visitor τ} {visit' : Visitor υ}
  {follow : FuncId → Walk τ Bool} {follow' : FuncId → Walk υ Bool}

theorem visitInstr_mimics (hvisit : ∀ v, Mimics g (visit v) (visit' v))
    (hfollow : ∀ f, Mimics g (follow f) (follow' f)) (f : FuncId) (front : Frontier)
    (id : InstrId) :
    Mimics g (visitInstr limits visit follow f front id)
      (visitInstr limits visit' follow' f front id) := by
  unfold visitInstr
  refine mimics_bind mimics_program fun p => ?_
  split
  · exact mimics_pure _
  refine mimics_bind (hvisit _) fun current => ?_
  cases current with
  | none => exact mimics_pure _
  | some current =>
    refine mimics_bind mimics_program fun p => ?_
    have htargets : Mimics g (goOn limits f front id) (goOn limits f front id) := by
      unfold goOn
      refine mimics_bind mimics_program fun p => ?_
      cases targets limits (p.func f).name (p.instr id) with
      | ok bs => exact mimics_pure _
      | error e => exact mimics_throw e
    cases current.toInstr?.bind fun call => (p.instr call).calledFunction? with
    | none => exact htargets
    | some callee =>
      exact mimics_bind (mimics_bind (hfollow callee) fun _ => mimics_pure _) fun _ => htargets

theorem visitBlocks_mimics (hvisit : ∀ v, Mimics g (visit v) (visit' v))
    (hfollow : ∀ f, Mimics g (follow f) (follow' f)) (f : FuncId) (fuel : Nat) (front : Frontier) :
    Mimics g (visitBlocks limits visit follow f fuel front)
      (visitBlocks limits visit' follow' f fuel front) := by
  induction fuel generalizing front with
  | zero => exact mimics_pure _
  | succ fuel ih =>
    unfold visitBlocks
    cases front.queue with
    | nil => exact mimics_pure _
    | cons b rest =>
      refine mimics_bind ?_ ih
      unfold visitBlock
      refine mimics_bind mimics_program fun p => ?_
      split
      · exact mimics_pure _
      refine mimics_bind (hvisit _) fun _ => mimics_bind mimics_program fun p => ?_
      exact mimics_foldlM (visitInstr_mimics hvisit hfollow f) _ _

theorem visitFunction_mimics (hvisit : ∀ v, Mimics g (visit v) (visit' v))
    (hfollow : ∀ f, Mimics g (follow f) (follow' f)) (f : FuncId) :
    Mimics g (visitFunction limits visit follow f) (visitFunction limits visit' follow' f) := by
  unfold visitFunction
  refine mimics_bind mimics_program fun p => ?_
  cases (p.func f).entryBlock? with
  | none => exact mimics_pure _
  | some entry => exact mimics_bind (hvisit _) fun _ => visitBlocks_mimics hvisit hfollow f _ _

theorem eraseDoomed_mimics (ids : List InstrId) :
    Mimics g (eraseDoomed ids : Walk τ Unit) (eraseDoomed ids) := by
  induction ids with
  | nil => exact mimics_pure _
  | cons id rest ih =>
    unfold eraseDoomed
    refine mimics_bind mimics_program fun p => ?_
    split
    · exact ih
    · exact mimics_bind (mimics_edit _) fun _ => ih

theorem walkWithin_mimics (hvisit : ∀ v, Mimics g (visit v) (visit' v)) (depth : Nat)
    (f : FuncId) : Mimics g (walkWithin limits visit depth f) (walkWithin limits visit' depth f) := by
  induction depth generalizing f with
  | zero => exact mimics_pure _
  | succ depth ih =>
    intro t
    have hbody : Mimics g (walkBody limits visit depth f t.doomed)
        (walkBody limits visit' depth f t.doomed) := by
      refine mimics_bind (visitFunction_mimics hvisit ih f) fun _ => ?_
      intro u
      exact mimics_bind (eraseDoomed_mimics u.doomed)
        (fun _ => mimics_bind (fun _ => rfl) fun _ => mimics_pure true) u
    rw [walkWithin_apply, walkWithin_apply]
    have hover : passesOver (t.map g) f = passesOver t f := rfl
    rw [hover]
    split
    · rfl
    · exact hbody { t with visited := f :: t.visited, doomed := [] }

/-- Visitors that do the same make the same walk. -/
theorem walk_mimics (hvisit : ∀ v, Mimics g (visit v) (visit' v)) (f : FuncId) :
    Mimics g (walk limits visit f) (walk limits visit' f) :=
  walkWithin_mimics hvisit limits.maxDepth f

end

end Walk

end QirProfile
