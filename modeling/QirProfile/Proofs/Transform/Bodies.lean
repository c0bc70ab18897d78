import QirProfile.Proofs.Program.Readings
import QirProfile.Proofs.Transform.ActiveCode

/-!
# Walking a body that calls declared functions only

Where everything that a function calls is only declared, a walk of the function never leaves it. As
long as the visits let be what a walk reads, the order of the visits is known beforehand: it is the
`route` through the function as it was.
-/

namespace QirProfile

namespace Program

/-! ## 1. Routes -/

/-- The queue behind a block that has been visited. -/
def queueBehind (p : Program) (front : Frontier) (b : BlockId) : Frontier :=
  ((p.block b).instrs.flatMap fun i => (p.instr i).taken).foldl Frontier.push front

/-- The blocks that are visited from a queue on, in order. -/
def visits (p : Program) : (fuel : Nat) → Frontier → List BlockId
  | 0, _ => []
  | fuel + 1, front =>
    match front.queue with
    | [] => []
    | b :: rest => b :: p.visits fuel (p.queueBehind { front with queue := rest } b)

/-- The instructions of a function in the order in which a walk comes to them. -/
def route (p : Program) (f : FuncId) : List InstrId :=
  match (p.func f).entryBlock? with
  | none => []
  | some entry =>
    (p.visits (p.blocks.size + 1) (.start entry)).flatMap fun b => (p.block b).instrs

/-- Control stays in these blocks, and they call declared functions only. -/
structure Confined (p : Program) (B : BlockId → Prop) : Prop where
  live : ∀ b, B b → (p.block b).erased = false
  onward : ∀ b i, B b → i ∈ (p.block b).instrs → ∀ c ∈ (p.instr i).taken, B c
  calls : ∀ b i k, B b → i ∈ (p.block b).instrs → (p.instr i).calledFunction? = some k →
    (p.func k).erased = false ∧ (p.func k).isDeclaration = true

/-- Where a walk still has to come to, it reads in `q` what it would read in `p`. The instructions in
    `done` are behind it. -/
structure Reads (p : Program) (done : List InstrId) (q : Program) : Prop where
  func : ∀ k : FuncId, k.index < p.functions.size → q.func k = p.func k
  block : ∀ b, (q.block b).erased = (p.block b).erased
  listed : ∀ b, (∀ i ∈ (p.block b).instrs, i ∉ done) → (q.block b).instrs = (p.block b).instrs
  instr : ∀ b, ∀ i ∈ (p.block b).instrs,
    (q.instr i).erased = false ∧ Instr.SameReading (p.instr i) (q.instr i)

theorem Sound.reads {p : Program} (hp : p.Sound) (done : List InstrId) : p.Reads done p where
  func _ _ := rfl
  block _ := rfl
  listed _ _ := rfl
  instr _ _ hi := ⟨hp.instr_live hi, .refl _⟩

end Program

theorem Walk.targets_apply (limits : WalkLimits) (name : String) (i : Instr) :
    Walk.targets limits name i = if i.isInvoke = true ∧ limits.assumeNoExcept = false
      then .error (.exceptionPath name) else .ok i.taken := by
  unfold Walk.targets Instr.taken Instr.isInvoke
  cases hkind : i.kind <;> cases hexcept : limits.assumeNoExcept <;> simp

/-! ## 2. Working through a body -/

variable {τ : Type}

/-- What a visitor does in the blocks `B` of the program `p`, when it comes to the instructions in
    the given order. While it works, `I` holds of the instructions visited so far, the last one first,
    of the program, and of what the visitor keeps. -/
structure Works (p : Program) (B : BlockId → Prop) (order : List InstrId) (visit : Visitor τ)
    (E : CompileError → Prop) (I : List InstrId → Program → τ → Prop) : Prop where
  reads : ∀ {done q x}, I done q x → p.Reads done q
  other : ∀ {done v} {t : PathState τ}, I done t.program t.extra → v.toInstr? = none →
    ∃ r, visit v t = .ok r t
  instr : ∀ {done rest b id} {t : PathState τ}, I done t.program t.extra → B b →
    id ∈ (p.block b).instrs → id ∉ done → order = done.reverse ++ id :: rest →
    ComesTo (visit (.instr id)) t E fun r u =>
      r = some (.instr id) ∧ I (id :: done) u.program u.extra ∧ u.doomed = t.doomed
  invoke : ∀ {b id}, B b → id ∈ (p.block b).instrs → (p.instr id).isInvoke = true →
    ∀ name, E (.exceptionPath name)

/-- Functions that are only declared are not followed. -/
def Stops (follow : FuncId → Walk τ Bool) : Prop :=
  ∀ k t, (t.program.func k).isDeclaration = true → ∃ b, follow k t = .ok b t

theorem stops_walkWithin (limits : WalkLimits) (visit : Visitor τ) (depth : Nat) :
    Stops (Walk.walkWithin limits visit depth) := by
  intro k t hdeclared
  cases depth with
  | zero => exact ⟨false, rfl⟩
  | succ depth =>
    refine ⟨false, (Walk.walkWithin_apply limits visit depth k t).trans (if_pos ?_)⟩
    rw [Walk.passesOver, hdeclared, Bool.or_true, Bool.true_or]

/-- What is still to come: blocks that control may reach, none of them visited. -/
structure Ahead (p : Program) (B : BlockId → Prop) (done : List InstrId) (front : Frontier) :
    Prop where
  inside : ∀ b ∈ front.queued, B b
  inQueue : front.queue ⊆ front.queued
  distinct : front.queue.Nodup
  pending : ∀ b ∈ front.queue, ∀ i ∈ (p.block b).instrs, i ∉ done
  known : ∀ i ∈ done, ∃ b ∈ front.queued, i ∈ (p.block b).instrs

section

variable {p : Program} {B : BlockId → Prop} {done : List InstrId} {t : PathState τ} {b : BlockId}

theorem ahead_start (hb : B b) : Ahead p B [] (.start b) where
  inside _ hc := List.mem_singleton.mp hc ▸ hb
  inQueue _ hc := hc
  distinct := List.nodup_singleton b
  pending _ _ _ _ := List.not_mem_nil
  known := nofun

theorem Ahead.next {rest queued : List BlockId} (h : Ahead p B done ⟨b :: rest, queued⟩)
    (hp : p.Sound) (honward : ∀ i ∈ (p.block b).instrs, ∀ c ∈ (p.instr i).taken, B c) :
    Ahead p B ((p.block b).instrs.reverse ++ done) (p.queueBehind ⟨rest, queued⟩ b) := by
  have hgrows := Frontier.grows_pushAll ((p.block b).instrs.flatMap fun i => (p.instr i).taken)
    ⟨rest, queued⟩
  have hrest : rest ⊆ queued := fun c hc => h.inQueue (List.mem_cons_of_mem b hc)
  have hself : b ∈ queued := h.inQueue List.mem_cons_self
  obtain ⟨hnot, hdistinct⟩ := List.nodup_cons.mp h.distinct
  have hone : ∀ {i c d}, i ∈ (p.block c).instrs → i ∈ (p.block d).instrs → c = d := fun hc hd =>
    Option.some.inj ((hp.mem_instrs.mp hc).symm.trans (hp.mem_instrs.mp hd))
  refine ⟨fun c hc => ?_, hgrows.inQueue hrest, hgrows.distinct hrest hdistinct,
    fun c hc i hi hmem => ?_, fun i hi => ?_⟩
  · rcases hgrows.origin c hc with hc | hc
    · exact h.inside c hc
    · obtain ⟨i, hi, htaken⟩ := List.mem_flatMap.mp hc
      exact honward i hi c htaken
  · rcases List.mem_append.mp hmem with hmem | hmem
    · obtain rfl := hone hi (List.mem_reverse.mp hmem)
      exact (hgrows.fresh c hc).elim hnot fun hfresh => hfresh hself
    · rcases hgrows.fresh c hc with hc | hfresh
      · exact h.pending c (List.mem_cons_of_mem b hc) i hi hmem
      · obtain ⟨d, hd, hid⟩ := h.known i hmem
        exact hfresh (hone hi hid ▸ hd)
  · rcases List.mem_append.mp hi with hi | hi
    · exact ⟨b, hgrows.old hself, List.mem_reverse.mp hi⟩
    · obtain ⟨c, hc, hic⟩ := h.known i hi
      exact ⟨c, hgrows.old hc, hic⟩

theorem Ahead.visits {front : Frontier} {fuel : Nat} (h : Ahead p B done front) (hp : p.Sound)
    (hB : p.Confined B) : ((p.visits fuel front).flatMap fun b => (p.block b).instrs).Nodup ∧
      ∀ i ∈ (p.visits fuel front).flatMap fun b => (p.block b).instrs,
        i ∉ done ∧ ∃ b, B b ∧ i ∈ (p.block b).instrs := by
  induction fuel generalizing front done with
  | zero => exact ⟨List.nodup_nil, nofun⟩
  | succ fuel ih =>
    obtain ⟨queue, queued⟩ := front
    cases queue with
    | nil => exact ⟨List.nodup_nil, nofun⟩
    | cons b rest =>
      have hb := h.inside b (h.inQueue List.mem_cons_self)
      obtain ⟨hnodup, hall⟩ := ih (h.next hp fun i => hB.onward b i hb)
      rw [Program.visits, List.flatMap_cons]
      refine ⟨(hp.nodup_instrs b).append hnodup fun i hi hrest => ?_, fun i hi => ?_⟩
      · exact (hall i hrest).1 (List.mem_append_left done (List.mem_reverse.mpr hi))
      · rcases List.mem_append.mp hi with hi | hi
        · exact ⟨h.pending b List.mem_cons_self i hi, b, hb, hi⟩
        · obtain ⟨hnew, hstands⟩ := hall i hi
          exact ⟨fun hmem => hnew (List.mem_append_right _ hmem), hstands⟩

theorem Program.Confined.route {f : FuncId} (hB : p.Confined B) (hp : p.Sound)
    (hentry : ∀ b, (p.func f).entryBlock? = some b → B b) : (p.route f).Nodup ∧
      ∀ i ∈ p.route f, ∃ b, B b ∧ i ∈ (p.block b).instrs := by
  unfold Program.route
  cases h : (p.func f).entryBlock? with
  | none => exact ⟨List.nodup_nil, nofun⟩
  | some b =>
    obtain ⟨hnodup, hall⟩ := (ahead_start (hentry b h)).visits hp hB
    exact ⟨hnodup, fun i hi => (hall i hi).2⟩

end

section

variable {p : Program} {B : BlockId → Prop} {visit : Visitor τ} {E : CompileError → Prop}
  {I : List InstrId → Program → τ → Prop} {limits : WalkLimits} {follow : FuncId → Walk τ Bool}
  {f : FuncId} {front : Frontier} {order done rest : List InstrId} {t : PathState τ} {b : BlockId}
  {id : InstrId}

variable (h : Works p B order visit E I) (hB : p.Confined B)

include h hB

theorem Works.visitInstr (hfollow : Stops follow) (ht : I done t.program t.extra) (hb : B b)
    (hid : id ∈ (p.block b).instrs) (hnew : id ∉ done) (horder : order = done.reverse ++ id :: rest) :
    ComesTo (Walk.visitInstr limits visit follow f front id) t E fun front' u =>
      front' = (p.instr id).taken.foldl Frontier.push front ∧ I (id :: done) u.program u.extra ∧
        u.doomed = t.doomed := by
  unfold Walk.visitInstr
  refine ComesTo.after (a := t.program) (t := t) rfl ?_
  rw [if_neg (by simp [((h.reads ht).instr b id hid).1])]
  refine ComesTo.bind ((h.instr ht hb hid hnew horder).mono (fun _ he => he) ?_)
  rintro r u ⟨rfl, hu, hdoomed⟩
  have hreads := (h.reads hu).instr b id hid
  have hgo : ComesTo (Walk.goOn limits f front id) u E fun front' u =>
      front' = (p.instr id).taken.foldl Frontier.push front ∧ I (id :: done) u.program u.extra ∧
        u.doomed = t.doomed := by
    unfold Walk.goOn
    refine ComesTo.after (a := u.program) (t := u) rfl ?_
    rw [Walk.targets_apply, hreads.2.invoke, hreads.2.taken]
    by_cases hinvoke : (p.instr id).isInvoke = true ∧ limits.assumeNoExcept = false
    · rw [if_pos hinvoke]
      exact comesTo_of_error rfl (h.invoke hb hid hinvoke.1 _)
    · rw [if_neg hinvoke]
      exact comesTo_of_ok rfl ⟨rfl, hu, hdoomed⟩
  refine ComesTo.after (a := u.program) (t := u) rfl ?_
  dsimp only [Value.toInstr?, Option.bind_some]
  rw [hreads.2.callee]
  cases hcall : (p.instr id).calledFunction? with
  | none => exact hgo
  | some k =>
    obtain ⟨hlive, hdeclared⟩ := hB.calls b id k hb hid hcall
    obtain ⟨walked, hwalked⟩ := hfollow k u (by
      rw [(h.reads hu).func k (Program.func_lt_of_live hlive)]
      exact hdeclared)
    exact ComesTo.after (bind_of_ok hwalked _) hgo

theorem Works.visitBlock (hp : p.Sound) (hfollow : Stops follow) (ht : I done t.program t.extra)
    (hb : B b) (hnew : ∀ i ∈ (p.block b).instrs, i ∉ done)
    (horder : order = done.reverse ++ ((p.block b).instrs ++ rest)) :
    ComesTo (Walk.visitBlock limits visit follow f front b) t E fun front' u =>
      front' = p.queueBehind front b ∧
        I ((p.block b).instrs.reverse ++ done) u.program u.extra ∧ u.doomed = t.doomed := by
  unfold Walk.visitBlock
  refine ComesTo.after (a := t.program) (t := t) rfl ?_
  rw [if_neg (by simp [(h.reads ht).block b, hB.live b hb])]
  obtain ⟨_, hvisit⟩ := h.other (v := .block b) ht rfl
  refine ComesTo.after hvisit (ComesTo.after (a := t.program) (t := t) rfl ?_)
  rw [(h.reads ht).listed b hnew]
  -- what has been seen of the block, and what has been queued for it
  refine (comesTo_foldlM (fun ids front' u => ∃ seen, (p.block b).instrs = seen ++ ids ∧
    front' = (seen.flatMap fun i => (p.instr i).taken).foldl Frontier.push front ∧
    I (seen.reverse ++ done) u.program u.extra ∧ u.doomed = t.doomed) ?_ ?_).mono
    (fun _ he => he) ?_
  · exact ⟨[], rfl, rfl, ht, rfl⟩
  · rintro i ids front' u ⟨seen, hsplit, rfl, hu, hdoomed⟩
    have hi : i ∈ (p.block b).instrs := by
      rw [hsplit]
      exact List.mem_append_right seen List.mem_cons_self
    have hnodup := hp.nodup_instrs b
    rw [hsplit] at hnodup
    have hseen : i ∉ seen := fun hmem =>
      (List.nodup_cons.mp (List.nodup_middle.mp hnodup)).1 (List.mem_append_left ids hmem)
    have hnext : order = (seen.reverse ++ done).reverse ++ i :: (ids ++ rest) := by
      rw [horder, hsplit, List.reverse_append, List.reverse_reverse]
      simp
    refine (h.visitInstr hB hfollow hu hb hi (fun hmem => ?_) hnext).mono (fun _ he => he) ?_
    · exact (List.mem_append.mp hmem).elim (fun hmem => hseen (List.mem_reverse.mp hmem)) (hnew i hi)
    · rintro front'' w ⟨rfl, hw, hdoomed'⟩
      refine ⟨seen ++ [i], by rw [hsplit, List.append_assoc]; rfl, ?_, ?_, hdoomed'.trans hdoomed⟩
      · rw [List.flatMap_append, List.foldl_append, List.flatMap_singleton]
      · rwa [List.reverse_append]
  · rintro front' u ⟨seen, hsplit, rfl, hu, hdoomed⟩
    rw [List.append_nil] at hsplit
    subst hsplit
    exact ⟨rfl, hu, hdoomed⟩

theorem Works.visitBlocks (hp : p.Sound) (hfollow : Stops follow) {fuel : Nat}
    (ht : I done t.program t.extra) (hahead : Ahead p B done front)
    (horder : order = done.reverse ++
      (p.visits fuel front).flatMap fun b => (p.block b).instrs) :
    ComesTo (Walk.visitBlocks limits visit follow f fuel front) t E fun _ u =>
      I order.reverse u.program u.extra ∧ u.doomed = t.doomed := by
  induction fuel generalizing front done t with
  | zero =>
    have hall : order.reverse = done := by
      rw [horder, Program.visits, List.flatMap_nil, List.append_nil, List.reverse_reverse]
    exact comesTo_of_ok rfl ⟨hall ▸ ht, rfl⟩
  | succ fuel ih =>
    obtain ⟨queue, queued⟩ := front
    unfold Walk.visitBlocks
    cases queue with
    | nil =>
      have hall : order.reverse = done := by
        rw [horder, Program.visits, List.flatMap_nil, List.append_nil, List.reverse_reverse]
      exact comesTo_of_ok rfl ⟨hall ▸ ht, rfl⟩
    | cons b rest =>
      rw [Program.visits, List.flatMap_cons] at horder
      have hb := hahead.inside b (hahead.inQueue List.mem_cons_self)
      refine ComesTo.bind ((h.visitBlock hB hp hfollow ht hb
        (hahead.pending b List.mem_cons_self) horder).mono (fun _ he => he) ?_)
      rintro front' u ⟨rfl, hu, hdoomed⟩
      refine (ih hu (hahead.next hp fun i => hB.onward b i hb) ?_).mono (fun _ he => he) fun _ w hw =>
        ⟨hw.1, hw.2.trans hdoomed⟩
      rw [horder, List.reverse_append, List.reverse_reverse, List.append_assoc]

omit h

/-- The run: what each visit keeps holds of the route behind the walk. -/
theorem Works.walkWithin (h : Works p B (p.route f) visit E I) (hp : p.Sound) {x : τ}
    {depth : Nat} {entry : BlockId} {books : List FuncId} {waiting : List InstrId}
    (hstart : I [] p x) (hlive : (p.func f).erased = false)
    (hentry : (p.func f).entryBlock? = some entry) (hb : B entry) (hnew : f ∉ books) :
    ComesTo (Walk.walkWithin limits visit (depth + 1) f) ⟨p, books, waiting, x⟩ E fun _ u =>
      I (p.route f).reverse u.program u.extra := by
  have hdefined : (p.func f).isDeclaration = false := by
    unfold Func.entryBlock? at hentry
    unfold Func.isDeclaration
    cases hblocks : (p.func f).blocks with
    | nil =>
      rw [hblocks] at hentry
      cases hentry
    | cons => rfl
  have hover : ¬ Walk.passesOver ⟨p, books, waiting, x⟩ f = true := by
    simp [Walk.passesOver, hlive, hdefined, hnew]
  have hfunction : ComesTo (Walk.visitFunction limits visit (Walk.walkWithin limits visit depth) f)
      ⟨p, f :: books, [], x⟩ E fun _ u => I (p.route f).reverse u.program u.extra ∧
        u.doomed = [] := by
    unfold Walk.visitFunction
    refine ComesTo.after (a := p) (t := ⟨p, f :: books, [], x⟩) rfl ?_
    rw [hentry]
    obtain ⟨_, hvisit⟩ := h.other (v := .func f) (t := ⟨p, f :: books, [], x⟩) hstart rfl
    refine ComesTo.after hvisit ?_
    refine h.visitBlocks hB hp (stops_walkWithin limits visit depth) hstart
      (ahead_start hb) ?_
    unfold Program.route
    rw [hentry]
    rfl
  unfold ComesTo
  rw [Walk.walkWithin_apply, if_neg hover]
  change ComesTo (Walk.walkBody limits visit depth f waiting) ⟨p, f :: books, [], x⟩ E _
  unfold Walk.walkBody
  refine ComesTo.bind (hfunction.mono (fun _ he => he) ?_)
  rintro _ u ⟨hu, hdoomed⟩
  refine ComesTo.after (a := u) (t := u) rfl ?_
  rw [hdoomed]
  exact comesTo_of_ok rfl hu

end

end QirProfile
