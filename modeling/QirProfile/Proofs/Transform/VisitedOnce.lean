import QirProfile.Proofs.Rule.Scheduling
import QirProfile.Proofs.Transform.Replays
import QirProfile.Proofs.Transform.RulesVerified

/-!
# Every instruction is visited once

A walk follows calls into other functions while it is in the middle of a block, and several entry points
are walked one after the other. Even so no instruction is visited twice: its block is queued once in a
walk of its function, and no function is walked twice.
-/

namespace QirProfile

namespace Program

variable {p : Program} {f : FuncId} {b : BlockId} {i : InstrId}

/-! ## 1. Verified functions -/

theorem Verified.onward (hv : p.Verified) (hp : p.Sound) (hf : (p.func f).erased = false)
    (hb : (p.block b).parent = some f) :
    ∀ i ∈ (p.block b).instrs, ∀ c ∈ (p.instr i).taken, (p.block c).parent = some f := fun i hi _ hc =>
  operandProblem?_block (((hv f hf b (hp.mem_blocks.mpr hb)).instrs i hi).operands _
    (Instr.mem_of_taken hc))

theorem Verified.called_live (hv : p.Verified) (hp : p.Sound) (hf : (p.func f).erased = false)
    (hb : (p.block b).parent = some f) (hi : i ∈ (p.block b).instrs) {k : FuncId}
    (hk : (p.instr i).calledFunction? = some k) : (p.func k).erased = false := by
  have hoperand := ((hv f hf b (hp.mem_blocks.mpr hb)).instrs i hi).operands _
    (Instr.mem_of_calledFunction? hk)
  unfold operandProblem? at hoperand
  split at hoperand
  · cases hoperand
  · rename_i hlive
    exact Bool.eq_false_iff.mpr hlive

theorem Sound.functionOf_of_parent (hp : p.Sound) (hb : (p.block b).parent = some f)
    (hi : i ∈ (p.block b).instrs) : p.functionOf? i = some f :=
  hp.functionOf_of_mem (hp.mem_blocks.mpr hb) hi

/-- Those of some instructions that stand in a function. -/
def own (p : Program) (f : FuncId) (ids : List InstrId) : List InstrId :=
  ids.filter fun i => p.functionOf? i = some f

theorem own_append (p : Program) (f : FuncId) (ids ids' : List InstrId) :
    p.own f (ids ++ ids') = p.own f ids ++ p.own f ids' := List.filter_append _ _

theorem mem_own {ids : List InstrId} : i ∈ p.own f ids ↔ i ∈ ids ∧ p.functionOf? i = some f := by
  unfold own
  rw [List.mem_filter, decide_eq_true_iff]

theorem own_of_all {ids : List InstrId} (h : ∀ i ∈ ids, p.functionOf? i = some f) :
    p.own f ids = ids :=
  List.filter_eq_self.mpr fun i hi => decide_eq_true (h i hi)

theorem own_of_none {ids : List InstrId} (h : ∀ i ∈ ids, p.functionOf? i ≠ some f) :
    p.own f ids = [] :=
  List.filter_eq_nil_iff.mpr fun i hi heq => h i hi (of_decide_eq_true heq)

end Program

/-! ## 2. Walks -/

open Program

variable {τ : Type}

/-- What a visitor does when it comes to an instruction of `p` for the first time. All the time `I`
    holds of the instructions visited so far, the last one first, of the program, and of what the
    visitor keeps. -/
structure Tours (p : Program) (visit : Visitor τ) (E : CompileError → Prop)
    (I : List InstrId → Program → τ → Prop) : Prop where
  reads : ∀ {done q x}, I done q x → p.Reads done q
  other : ∀ {v} {t : PathState τ}, v.toInstr? = none → ∃ r, visit v t = .ok r t
  instr : ∀ {done b id} {t : PathState τ}, I done t.program t.extra → id ∈ (p.block b).instrs →
    id ∉ done → ComesTo (visit (.instr id)) t E fun r u =>
      r = some (.instr id) ∧ I (id :: done) u.program u.extra ∧ u.doomed = t.doomed ∧
        u.visited = t.visited
  path : ∀ name, E (.exceptionPath name)

/-- The instructions in `done` have been visited, in functions that the walk has entered. -/
structure Toured (p : Program) (I : List InstrId → Program → τ → Prop) (done : List InstrId)
    (t : PathState τ) : Prop where
  holds : I done t.program t.extra
  booked : ∀ i ∈ done, ∃ f ∈ t.visited, p.functionOf? i = some f

/-- From one state of a walk to a later one the instructions `ids` were visited, the last one first,
    and with them instructions of functions that had not been entered before. -/
structure Proceeds (p : Program) (done : List InstrId) (t : PathState τ) (ids done' : List InstrId)
    (u : PathState τ) : Prop where
  visited : t.visited ⊆ u.visited
  doomed : u.doomed = t.doomed
  own : ∀ g ∈ t.visited, p.own g done' = p.own g (ids ++ done)

section

variable {p : Program} {visit : Visitor τ} {E : CompileError → Prop}
  {I : List InstrId → Program → τ → Prop} {limits : WalkLimits} {follow : FuncId → Walk τ Bool}
  {f : FuncId} {front : Frontier} {done done' done'' ids ids' : List InstrId} {t u v : PathState τ}
  {b : BlockId} {id : InstrId}

theorem Proceeds.refl (done : List InstrId) (t : PathState τ) : Proceeds p done t [] done t :=
  ⟨fun _ h => h, rfl, fun _ _ => rfl⟩

theorem Proceeds.trans (h : Proceeds p done t ids done' u) (h' : Proceeds p done' u ids' done'' v) :
    Proceeds p done t (ids' ++ ids) done'' v where
  visited := List.Subset.trans h.visited h'.visited
  doomed := h'.doomed.trans h.doomed
  own g hg := by
    rw [h'.own g (h.visited hg), own_append, h.own g hg, ← own_append, List.append_assoc]

theorem Proceeds.mem (h : Proceeds p done t ids done' u) (hf : f ∈ t.visited)
    (hid : p.functionOf? id = some f) : id ∈ done' ↔ id ∈ ids ∨ id ∈ done := by
  have hown : id ∈ p.own f done' ↔ id ∈ p.own f (ids ++ done) := by rw [h.own f hf]
  rw [mem_own, mem_own, List.mem_append] at hown
  simpa [hid] using hown

/-- What a call is followed into is walked as a whole. -/
def Enters (p : Program) (E : CompileError → Prop) (I : List InstrId → Program → τ → Prop)
    (follow : FuncId → Walk τ Bool) : Prop :=
  ∀ k done (t : PathState τ), (p.func k).erased = false → Toured p I done t →
    ComesTo (follow k) t E fun _ u => ∃ done', Toured p I done' u ∧ Proceeds p done t [] done' u

variable (h : Tours p visit E I) (hp : p.Sound) (hv : p.Verified)

include h hp hv

theorem Tours.visitInstr (hfollow : Enters p E I follow) (ht : Toured p I done t)
    (hlive : (p.func f).erased = false) (hf : f ∈ t.visited) (hb : (p.block b).parent = some f)
    (hid : id ∈ (p.block b).instrs) (hnew : id ∉ done) :
    ComesTo (Walk.visitInstr limits visit follow f front id) t E fun front' u =>
      front' = (p.instr id).taken.foldl Frontier.push front ∧
        ∃ done', Toured p I done' u ∧ Proceeds p done t [id] done' u := by
  have hfunction := hp.functionOf_of_parent hb hid
  unfold Walk.visitInstr
  refine ComesTo.after (a := t.program) (t := t) rfl ?_
  rw [if_neg (by simp [((h.reads ht.holds).instr b id hid).1])]
  refine ComesTo.bind ((h.instr ht.holds hid hnew).mono (fun _ he => he) ?_)
  rintro r u ⟨rfl, hu, hdoomed, hvisited⟩
  have htoured : Toured p I (id :: done) u := ⟨hu, List.forall_mem_cons.mpr
    ⟨⟨f, hvisited ▸ hf, hfunction⟩, fun i hi => hvisited ▸ ht.booked i hi⟩⟩
  have hstep : Proceeds p done t [id] (id :: done) u :=
    ⟨fun _ hg => hvisited ▸ hg, hdoomed, fun _ _ => rfl⟩
  have hgo : ∀ {w done'}, Toured p I done' w → Proceeds p done t [id] done' w →
      ComesTo (Walk.goOn limits f front id) w E fun front' w =>
        front' = (p.instr id).taken.foldl Frontier.push front ∧
          ∃ done', Toured p I done' w ∧ Proceeds p done t [id] done' w := by
    intro w done' hw honward
    unfold Walk.goOn
    refine ComesTo.after (a := w.program) (t := w) rfl ?_
    have hreads := ((h.reads hw.holds).instr b id hid).2
    rw [Walk.targets_apply, hreads.invoke, hreads.taken]
    by_cases hinvoke : (p.instr id).isInvoke = true ∧ limits.assumeNoExcept = false
    · rw [if_pos hinvoke]
      exact comesTo_of_error rfl (h.path _)
    · rw [if_neg hinvoke]
      exact comesTo_of_ok rfl ⟨rfl, done', hw, honward⟩
  refine ComesTo.after (a := u.program) (t := u) rfl ?_
  dsimp only [Value.toInstr?, Option.bind_some]
  rw [((h.reads hu).instr b id hid).2.callee]
  cases hcall : (p.instr id).calledFunction? with
  | none => exact hgo htoured hstep
  | some k =>
    refine ComesTo.bind (ComesTo.discard ?_)
    refine (hfollow k _ u (hv.called_live hp hlive hb hid hcall) htoured).mono (fun _ he => he) ?_
    rintro _ w ⟨done', hw, honward⟩
    exact hgo hw (hstep.trans honward)

theorem Tours.visitBlock (hfollow : Enters p E I follow) (ht : Toured p I done t)
    (hlive : (p.func f).erased = false) (hf : f ∈ t.visited) (hb : (p.block b).parent = some f)
    (hnew : ∀ i ∈ (p.block b).instrs, i ∉ done) :
    ComesTo (Walk.visitBlock limits visit follow f front b) t E fun front' u =>
      front' = p.queueBehind front b ∧
        ∃ done', Toured p I done' u ∧ Proceeds p done t (p.block b).instrs.reverse done' u := by
  unfold Walk.visitBlock
  refine ComesTo.after (a := t.program) (t := t) rfl ?_
  rw [if_neg (by simp [(h.reads ht.holds).block b, hp.block_live_of_listed (hp.mem_blocks.mpr hb)])]
  obtain ⟨_, hvisit⟩ := h.other (v := .block b) (t := t) rfl
  refine ComesTo.after hvisit (ComesTo.after (a := t.program) (t := t) rfl ?_)
  rw [(h.reads ht.holds).listed b hnew]
  -- what has been seen of the block, and what has been queued for it
  refine (comesTo_foldlM (fun rest front' u => ∃ seen, (p.block b).instrs = seen ++ rest ∧
    front' = (seen.flatMap fun i => (p.instr i).taken).foldl Frontier.push front ∧
    ∃ done', Toured p I done' u ∧ Proceeds p done t seen.reverse done' u) ?_ ?_).mono
    (fun _ he => he) ?_
  · exact ⟨[], rfl, rfl, done, ht, .refl done t⟩
  · rintro i rest front' u ⟨seen, hsplit, rfl, done', hu, honward⟩
    have hi : i ∈ (p.block b).instrs := by
      rw [hsplit]
      exact List.mem_append_right seen List.mem_cons_self
    have hnodup := hp.nodup_instrs b
    rw [hsplit] at hnodup
    have hseen : i ∉ seen := fun hmem =>
      (List.nodup_cons.mp (List.nodup_middle.mp hnodup)).1 (List.mem_append_left rest hmem)
    have hnot : i ∉ done' := by
      rw [honward.mem hf (hp.functionOf_of_parent hb hi), List.mem_reverse]
      exact not_or.mpr ⟨hseen, hnew i hi⟩
    refine (h.visitInstr hp hv hfollow hu hlive (honward.visited hf) hb hi hnot).mono
      (fun _ he => he) ?_
    rintro front'' w ⟨rfl, done'', hw, honward'⟩
    refine ⟨seen ++ [i], by rw [hsplit, List.append_assoc]; rfl, ?_, done'', hw, ?_⟩
    · rw [List.flatMap_append, List.foldl_append, List.flatMap_singleton]
    · rw [List.reverse_append]
      exact honward.trans honward'
  · rintro front' u ⟨seen, hsplit, rfl, done', hu, honward⟩
    rw [List.append_nil] at hsplit
    subst hsplit
    exact ⟨rfl, done', hu, honward⟩

theorem Tours.visitBlocks (hfollow : Enters p E I follow) {fuel : Nat} (ht : Toured p I done t)
    (hlive : (p.func f).erased = false) (hf : f ∈ t.visited)
    (hahead : Ahead p (fun b => (p.block b).parent = some f) (p.own f done) front) :
    ComesTo (Walk.visitBlocks limits visit follow f fuel front) t E fun _ u =>
      ∃ ids done', (∀ i ∈ ids, p.functionOf? i = some f) ∧ Toured p I done' u ∧
        Proceeds p done t ids done' u := by
  induction fuel generalizing front done t with
  | zero => exact comesTo_of_ok rfl ⟨[], done, List.forall_mem_nil _, ht, .refl done t⟩
  | succ fuel ih =>
    obtain ⟨queue, queued⟩ := front
    unfold Walk.visitBlocks
    cases queue with
    | nil => exact comesTo_of_ok rfl ⟨[], done, List.forall_mem_nil _, ht, .refl done t⟩
    | cons b rest =>
      have hb := hahead.inside b (hahead.inQueue List.mem_cons_self)
      have hfunction := fun i hi => hp.functionOf_of_parent (i := i) hb hi
      have hnew : ∀ i ∈ (p.block b).instrs, i ∉ done := fun i hi hmem =>
        hahead.pending b List.mem_cons_self i hi (mem_own.mpr ⟨hmem, hfunction i hi⟩)
      refine ComesTo.bind ((h.visitBlock hp hv hfollow ht hlive hf hb hnew).mono (fun _ he => he) ?_)
      rintro front' u ⟨rfl, done', hu, honward⟩
      have hnext := hahead.next hp (hv.onward hp hlive hb)
      have hown : p.own f done' = (p.block b).instrs.reverse ++ p.own f done := by
        rw [honward.own f hf, own_append, own_of_all fun i hi => hfunction i (List.mem_reverse.mp hi)]
      rw [← hown] at hnext
      refine (ih hu (honward.visited hf) hnext).mono (fun _ he => he) ?_
      rintro _ w ⟨ids, done'', hids, hw, honward'⟩
      refine ⟨ids ++ (p.block b).instrs.reverse, done'', fun i hi => ?_, hw, honward.trans honward'⟩
      exact (List.mem_append.mp hi).elim (hids i) fun hi => hfunction i (List.mem_reverse.mp hi)

theorem Tours.walkWithin (depth : Nat) : Enters p E I (Walk.walkWithin limits visit depth) := by
  induction depth with
  | zero => exact fun k done t _ ht => comesTo_of_ok rfl ⟨done, ht, .refl done t⟩
  | succ depth ih =>
    intro k done t hlive ht
    unfold ComesTo
    rw [Walk.walkWithin_apply]
    by_cases hover : Walk.passesOver t k = true
    · rw [if_pos hover]
      exact ⟨done, ht, .refl done t⟩
    rw [if_neg hover]
    have hk : k ∉ t.visited := fun hmem => hover (by simp [Walk.passesOver, hmem])
    have hnone : p.own k done = [] := own_of_none fun i hi heq => by
      obtain ⟨g, hg, hown⟩ := ht.booked i hi
      rw [heq, Option.some_inj] at hown
      exact hk (hown ▸ hg)
    have hstart : Toured p I done { t with visited := k :: t.visited, doomed := [] } :=
      ⟨ht.holds, fun i hi => (ht.booked i hi).imp fun g hg => ⟨List.mem_cons_of_mem k hg.1, hg.2⟩⟩
    have hfunction : ComesTo (Walk.visitFunction limits visit (Walk.walkWithin limits visit depth) k)
        { t with visited := k :: t.visited, doomed := [] } E fun _ u => ∃ ids done',
          (∀ i ∈ ids, p.functionOf? i = some k) ∧ Toured p I done' u ∧
            Proceeds p done { t with visited := k :: t.visited, doomed := [] } ids done' u := by
      unfold Walk.visitFunction
      refine ComesTo.after (a := t.program) rfl ?_
      rw [(h.reads ht.holds).func k (func_lt_of_live hlive)]
      cases hentry : (p.func k).entryBlock? with
      | none => exact comesTo_of_ok rfl ⟨[], done, List.forall_mem_nil _, hstart, .refl done _⟩
      | some entry =>
        obtain ⟨_, hvisit⟩ := h.other (v := .func k)
          (t := { t with visited := k :: t.visited, doomed := [] }) rfl
        refine ComesTo.after hvisit ?_
        refine h.visitBlocks hp hv ih hstart hlive List.mem_cons_self ?_
        rw [hnone]
        exact ahead_start (hp.mem_blocks.mp (List.mem_of_mem_head? hentry))
    change ComesTo (Walk.walkBody limits visit depth k t.doomed)
      { t with visited := k :: t.visited, doomed := [] } E _
    unfold Walk.walkBody
    refine ComesTo.bind (hfunction.mono (fun _ he => he) ?_)
    rintro _ u ⟨ids, done', hids, hu, honward⟩
    refine ComesTo.after (a := u) (t := u) rfl ?_
    rw [honward.doomed]
    refine comesTo_of_ok rfl ⟨done', ⟨hu.holds, hu.booked⟩, fun g hg =>
      honward.visited (List.mem_cons_of_mem k hg), rfl, fun g hg => ?_⟩
    have helse : p.own g ids = [] := own_of_none fun i hi heq => by
      rw [hids i hi, Option.some_inj] at heq
      exact hk (heq ▸ hg)
    rw [honward.own g (List.mem_cons_of_mem k hg), own_append, own_append, helse]
    rfl

theorem Tours.walks {entries : List FuncId} (hentries : ∀ f ∈ entries, (p.func f).erased = false)
    (ht : Toured p I done t) :
    ComesTo (entries.forM fun entry => discard (Walk.walk limits visit entry)) t E fun _ u =>
      ∃ done', Toured p I done' u := by
  refine (comesTo_forM (fun fs u => (∀ f ∈ fs, (p.func f).erased = false) ∧ ∃ done', Toured p I done' u)
    ⟨hentries, done, ht⟩ ?_).mono (fun _ he => he) fun _ _ hu => hu.2
  rintro f rest u ⟨hlive, done', hu⟩
  obtain ⟨hf, hrest⟩ := List.forall_mem_cons.mp hlive
  refine ComesTo.discard ((h.walkWithin hp hv limits.maxDepth f done' u hf hu).mono (fun _ he => he) ?_)
  rintro _ w ⟨done'', hw, -⟩
  exact ⟨hrest, done'', hw⟩

end

/-! ## 3. Rules -/

namespace Replacing

theorem Gathered.reads {p : Program} {done : List InstrId} {T : Traces} {s : RuleState Addresses}
    (h : Gathered p done T s) : p.Reads done s.program :=
  reads_of_grown h.toGrown h.untouched

end Replacing

namespace Transform

open Replacing

/-- The rules have been tried on the instructions in `done`, the last one first, and on each of them
    once. -/
def Collected (p : Program) (done : List InstrId) (q : Program) (x : RuleRun) : Prop :=
  ∃ T, Gathered p done T ⟨q, x.scheduled, x.addresses⟩

/-- Why trying rules fails: an allocator has refused a request, or an invoke ends the walk. -/
def TryingFails (e : CompileError) : Prop := e.IsRefusal ∨ ∃ name, e = .exceptionPath name

variable {p : Program} {done ids : List InstrId} {t : PathState RuleRun} {settings : RuleSettings}
  {s : TransformSettings}

theorem collected_tours : Tours p (ruleVisitor settings.rules) TryingFails
    (Collected p) where
  reads := fun ⟨_, hg⟩ => hg.reads
  other := ruleVisitor_other
  instr := fun ⟨_, hg⟩ hid hnew =>
    comesTo_ruleVisitor ((hg.applyFirst settings hid hnew).mono (fun _ => .inl) fun _ _ hs => hs)
  path name := .inr ⟨name, rfl⟩

theorem forM_tryRules_collected (hids : ids.Nodup) (hstand : ∀ i ∈ ids, ∃ b, i ∈ (p.block b).instrs)
    (hnew : ∀ i ∈ ids, i ∉ done) (h : Collected p done t.program t.extra) :
    ComesTo (ids.forM (tryRules settings.rules)) t TryingFails fun _ u =>
      Collected p (ids.reverse ++ done) u.program u.extra := by
  induction ids generalizing done t with
  | nil => exact comesTo_of_ok rfl h
  | cons id ids ih =>
    obtain ⟨T, hg⟩ := h
    obtain ⟨⟨b, hid⟩, hstand⟩ := List.forall_mem_cons.mp hstand
    obtain ⟨hfresh, hnew⟩ := List.forall_mem_cons.mp hnew
    obtain ⟨hnot, hids⟩ := List.nodup_cons.mp hids
    refine ComesTo.bind ((comesTo_tryRules (hg.applyFirst settings hid hfresh)).mono
      (fun _ => .inl) ?_)
    rintro _ u ⟨hu, -⟩
    rw [List.reverse_cons, List.append_assoc]
    refine ih hids hstand (fun i hi hmem => ?_) hu
    rcases List.mem_cons.mp hmem with rfl | hmem
    · exact hnot hi
    · exact hnew i hi hmem

theorem tryEverywhere_collected (hp : p.Sound) {fs : List FuncId} (hfs : fs.Nodup)
    (hlive : ∀ f ∈ fs, (p.func f).erased = false)
    (hnew : ∀ i ∈ done, ∀ f ∈ fs, p.functionOf? i ≠ some f)
    (h : Collected p done t.program t.extra) :
    ComesTo (tryEverywhere settings.rules fs) t TryingFails fun _ u =>
      ∃ done', Collected p done' u.program u.extra := by
  induction fs generalizing done t with
  | nil => exact comesTo_of_ok rfl ⟨done, h⟩
  | cons f fs ih =>
    obtain ⟨hf, hrest⟩ := List.forall_mem_cons.mp hlive
    obtain ⟨hnot, hfs⟩ := List.nodup_cons.mp hfs
    have hfunction := fun {i} (hi : i ∈ p.instrsOf f) => hp.mem_instrsOf.mp hi
    have hfresh : ∀ i ∈ p.instrsOf f, i ∉ done := fun i hi hmem =>
      hnew i hmem f List.mem_cons_self (hfunction hi)
    have hreads : p.Reads done t.program := by
      obtain ⟨T, hg⟩ := h
      exact hg.reads
    have hsame : t.program.instrsOf f = p.instrsOf f := by
      unfold instrsOf
      rw [hreads.func f (func_lt_of_live hf)]
      exact List.flatMap_congr fun b hb => hreads.listed b fun i hi =>
        hfresh i (List.mem_flatMap.mpr ⟨b, hb, hi⟩)
    unfold tryEverywhere
    refine ComesTo.after (a := t.program) (t := t) rfl ?_
    rw [hsame]
    refine ComesTo.bind ((forM_tryRules_collected (hp.nodup_instrsOf f)
      (fun i hi => (List.mem_flatMap.mp hi).imp fun _ hb => hb.2) hfresh h).mono (fun _ he => he) ?_)
    intro _ u hu
    refine ih hfs hrest (fun i hi g hg heq => ?_) hu
    rcases List.mem_append.mp hi with hi | hi
    · obtain rfl := Option.some.inj ((hfunction (List.mem_reverse.mp hi)).symm.trans heq)
      exact hnot hg
    · exact hnew i hi g (List.mem_cons_of_mem f hg) heq

theorem sameFrame_annotated (s : TransformSettings) (a : Addresses) (entries : List FuncId)
    (q : Program) : q.SameFrame (entries.foldl (·.updateFunc · (annotate s a)) q) ∧
      ∀ i, (entries.foldl (·.updateFunc · (annotate s a)) q).instr i = q.instr i := by
  induction entries generalizing q with
  | nil => exact ⟨.refl q, fun _ => rfl⟩
  | cons f fs ih =>
    obtain ⟨hframe, hinstr⟩ := ih (q.updateFunc f (annotate s a))
    exact ⟨(sameFrame_updateFunc (annotate_frame s a) q f).trans hframe, hinstr⟩

theorem tryAll_collected (settings : RuleSettings) (s : TransformSettings) (hp : p.Sound)
    (hv : p.Verified) (a : Addresses) :
    ComesTo (tryAll settings.rules s (s.entryPoints p)) { program := p, extra := { addresses := a } }
      TryingFails fun _ u => ∃ done q, Collected p done q u.extra ∧ q.SameFrame u.program ∧
        ∀ i, u.program.instr i = q.instr i := by
  have hstart : Collected p [] p { addresses := a } := ⟨{}, .start hp a⟩
  unfold tryAll
  split
  · have hentries : ∀ f ∈ s.entryPoints p, (p.func f).erased = false := fun f hf =>
      mem_liveFunctions.mp (List.mem_of_mem_filter hf)
    refine ComesTo.bind ((collected_tours.walks hp hv hentries (t := ⟨p, [], [], { addresses := a }⟩)
      ⟨hstart, nofun⟩).mono (fun _ he => he) ?_)
    rintro _ u ⟨done, hu⟩
    obtain ⟨hframe, hinstr⟩ :=
      sameFrame_annotated s u.extra.addresses (s.entryPoints p) u.program
    exact comesTo_of_ok rfl ⟨done, u.program, hu.holds, hframe, hinstr⟩
  · refine ComesTo.after (a := p) rfl ?_
    refine ComesTo.mono (tryEverywhere_collected hp p.nodup_liveFunctions
      (fun f hf => mem_liveFunctions.mp hf) (by simp) hstart) (fun _ he => he) ?_
    rintro _ u ⟨done, hu⟩
    exact ⟨done, u.program, hu, .refl _, fun _ => rfl⟩

theorem runRules_collected {c : Compilation} (hp : c.program.Sound) (hv : c.program.Verified) :
    ComesTo (runRules settings.rules s (s.entryPoints c.program)) c TryingFails fun run c' =>
      ∃ done q, Collected c.program done q run ∧ q.SameFrame c'.program ∧
        ∀ i, c'.program.instr i = q.instr i := by
  have htry := tryAll_collected settings s hp hv c.addresses
  unfold ComesTo at htry ⊢
  unfold runRules
  cases h : tryAll settings.rules s (s.entryPoints c.program)
      { program := c.program, extra := { addresses := c.addresses } } with
  | error e u =>
    rw [h] at htry
    exact htry
  | ok _ u =>
    rw [h] at htry
    exact htry

theorem runRules_ready {c : Compilation} (hp : c.program.Sound) (hv : c.program.Verified) :
    ComesTo (runRules settings.rules s (s.entryPoints c.program)) c TryingFails fun run c' =>
      Ready run.scheduled c'.program := by
  refine (runRules_collected hp hv).mono (fun _ he => he) ?_
  rintro run c' ⟨done, q, ⟨T, hg⟩, hframe, hinstr⟩
  exact hg.ready.congr (hframe.evolves hg.sound).1 hinstr

theorem applyRules_trying {c : Compilation} (hp : c.program.Sound) (hv : c.program.Verified)
    (stats : TransformStatistics) :
    ComesTo (applyRules settings.rules s stats) c TryingFails fun _ _ => True := by
  unfold applyRules
  refine ComesTo.after (a := c) (t := c) rfl (ComesTo.bind ?_)
  refine ComesTo.mono (runRules_ready hp hv) (fun _ he => he) ?_
  intro run c' hready
  obtain ⟨n, q, hcarry, -⟩ := carryOut_spliced hready
  exact ComesTo.after (compile_ok.mpr ⟨q, hcarry, rfl⟩) (comesTo_of_ok rfl trivial)

/-- No instruction is scheduled twice, so a round never ends in a conflict. -/
theorem applyRules_noConflict (settings : RuleSettings) (s : TransformSettings)
    (stats : TransformStatistics) {c : Compilation} (hp : c.program.Sound)
    (hv : c.program.verify = .ok ()) :
    (∀ run c', runRules settings.rules s (s.entryPoints c.program) c = .ok run c' →
        (run.scheduled.map (·.old)).Nodup) ∧
      ∀ id c', applyRules settings.rules s stats c ≠ .error (.replacementConflict id) c' := by
  have hverified := verify_ok.mp hv
  refine ⟨fun run c' hrun => ((runRules_ready hp hverified).of_ok hrun).olds, fun id c' hfail => ?_⟩
  rcases (applyRules_trying hp hverified stats).of_error hfail with ⟨cause, hcause⟩ | ⟨name, hname⟩
  · cases hcause
  · cases hname

/-- Two loads and a store share the pointer to an array element. -/
def sharing : Program where
  name := "sharing"
  namedTypes := [("Array", none), ("Qubit", none)]
  functions := #[
    ⟨"__quantum__rt__qubit_allocate_array", .ptr (.named "Array"), [⟨none, .int 64⟩], false, none, none,
      [], [], false⟩,
    ⟨"__quantum__rt__array_get_element_ptr_1d", .ptr (.int 8),
      [⟨none, .ptr (.named "Array")⟩, ⟨none, .int 64⟩], false, none, none, [], [], false⟩,
    ⟨"__quantum__qis__cnot__body", .void,
      [⟨none, .ptr (.named "Qubit")⟩, ⟨none, .ptr (.named "Qubit")⟩], false, none, none, [], [], false⟩,
    ⟨"Main", .void, [], false, none, none, [.pair "EntryPoint" none], [⟨0⟩], false⟩]
  blocks := #[⟨some "entry", some ⟨3⟩, [⟨0⟩, ⟨1⟩, ⟨2⟩, ⟨3⟩, ⟨4⟩, ⟨5⟩, ⟨6⟩, ⟨7⟩], false⟩]
  instrs := #[
    ⟨.call .none, .ptr (.named "Array"), [.int 64 1, .func ⟨0⟩], some "a", some ⟨0⟩, false⟩,
    ⟨.call .none, .ptr (.int 8), [.instr ⟨0⟩, .int 64 0, .func ⟨1⟩], some "p", some ⟨0⟩, false⟩,
    ⟨.cast .bitcast, .ptr (.ptr (.named "Qubit")), [.instr ⟨1⟩], some "c", some ⟨0⟩, false⟩,
    ⟨.load none, .ptr (.named "Qubit"), [.instr ⟨2⟩], some "q", some ⟨0⟩, false⟩,
    ⟨.load none, .ptr (.named "Qubit"), [.instr ⟨2⟩], some "r", some ⟨0⟩, false⟩,
    ⟨.call .none, .void, [.instr ⟨3⟩, .instr ⟨4⟩, .func ⟨2⟩], none, some ⟨0⟩, false⟩,
    ⟨.store none, .void, [.null (.ptr (.named "Qubit")), .instr ⟨2⟩], none, some ⟨0⟩, false⟩,
    ⟨.ret, .void, [], none, some ⟨0⟩, false⟩]

theorem applyRules_noConflict_sharing : ∃ run c,
    runRules ({} : RuleSettings).rules {} (({} : TransformSettings).entryPoints sharing)
      { program := sharing } = .ok run c ∧
    run.scheduled.map (·.old) = [⟨0⟩, ⟨3⟩, ⟨1⟩, ⟨2⟩, ⟨4⟩] ∧ (run.scheduled.map (·.old)).Nodup := by
  obtain ⟨run, c, hrun, holds⟩ := exists_answer
    (r := runRules ({} : RuleSettings).rules {} (({} : TransformSettings).entryPoints sharing)
      { program := sharing })
    (P := fun run _ => run.scheduled.map (·.old) = [⟨0⟩, ⟨3⟩, ⟨1⟩, ⟨2⟩, ⟨4⟩]) (by decide +kernel)
  exact ⟨run, c, hrun, holds, (applyRules_noConflict {} {} {} (c := { program := sharing })
    (by decide +kernel) (by rfl)).1 run c hrun⟩

end Transform

end QirProfile
