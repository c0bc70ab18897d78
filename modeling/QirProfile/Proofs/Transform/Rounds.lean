import QirProfile.Proofs.Rule.CarriedOut
import QirProfile.Proofs.Rule.Outcomes
import QirProfile.Proofs.Transform.VisitedOnce

/-!
# Rounds of the rules

Rules are tried on one instruction after the other, along the execution path or everywhere. This is about
any sound program, also one in which an instruction is come to twice.
-/

namespace QirProfile

namespace Transform

open Replacing
open Program (Extends)

variable {settings : RuleSettings} {s s' : RuleState Addresses} {id i : InstrId} {ids js : List InstrId}
  {b : BlockId}

/-! ## 1. Trials in a row -/

/-- The rules are tried on instructions that stand in blocks, one after the other, and do not fail. -/
def Attends (settings : RuleSettings) : RuleState Addresses → List InstrId → Prop
  | _, [] => True
  | s, id :: ids => (∃ b, id ∈ (s.program.block b).instrs) ∧
    (∃ accepted, applyFirst settings.rules id s = .ok accepted (visit settings.rules s id)) ∧
      Attends settings (visit settings.rules s id) ids

theorem attends_append : Attends settings s (ids ++ js) ↔
    Attends settings s ids ∧ Attends settings (visitAll settings.rules s ids) js := by
  induction ids generalizing s with
  | nil => simp [Attends]
  | cons id ids ih => simp [Attends, ih, and_assoc]

/-- What has become of the state where the rules have been tried on an instruction. -/
inductive Attended (settings : RuleSettings) (id : InstrId) (s : RuleState Addresses) :
    RuleState Addresses → Prop where
  | declined (h : applyFirst settings.rules id s = .ok false s) : Attended settings id s s
  | accepted {s' : RuleState Addresses} {heir answer : Option InstrId} {along : List InstrId}
      (h : applyFirst settings.rules id s = .ok true s')
      (hwork : Treated settings id s s' heir answer along) : Attended settings id s s'

theorem Attends.head (hs : s.program.Sound) (h : Attends settings s (id :: ids)) :
    Attended settings id s (visit settings.rules s id) := by
  obtain ⟨⟨b, hid⟩, ⟨accepted, hvisit⟩, -⟩ := h
  cases accepted with
  | true =>
    obtain ⟨heir, answer, along, hwork⟩ := accepted_applyFirst hs hid hvisit
    exact .accepted hvisit hwork
  | false =>
    have hsame := applyFirst_declined hvisit
    rw [hsame] at hvisit ⊢
    exact .declined hvisit

theorem Attended.extends (hs : s.program.Sound) (h : Attended settings id s s') :
    s.program.Extends s'.program := by
  cases h with
  | declined => exact .refl hs
  | accepted _ hwork => exact hwork.grown

theorem Attends.keeps (Inv : RuleState Addresses → Prop) (hs : s.program.Sound)
    (h : Attends settings s ids) (hstart : Inv s)
    (hstep : ∀ id s s' heir answer along b, s.program.Sound → id ∈ (s.program.block b).instrs →
      Treated settings id s s' heir answer along → Inv s → Inv s') :
    Inv (visitAll settings.rules s ids) := by
  induction ids generalizing s with
  | nil => exact hstart
  | cons id ids ih =>
    have hhead := h.head hs
    have hsound := (hhead.extends hs).sound
    obtain ⟨⟨b, hid⟩, -, hrest⟩ := h
    refine ih hsound hrest ?_
    generalize visit settings.rules s id = s' at hhead
    cases hhead with
    | declined => exact hstart
    | accepted _ hwork => exact hstep id s s' _ _ _ b hs hid hwork hstart

theorem Attends.extends (hs : s.program.Sound) (h : Attends settings s ids) :
    s.program.Extends (visitAll settings.rules s ids).program :=
  h.keeps (fun t => s.program.Extends t.program) hs (.refl hs)
    fun _ _ _ _ _ _ _ _ _ hwork hbefore => hbefore.trans hwork.grown

theorem Attends.scheduled (hs : s.program.Sound) (h : Attends settings s ids) :
    s.scheduled <+: (visitAll settings.rules s ids).scheduled :=
  h.keeps (fun t => s.scheduled <+: t.scheduled) hs (List.prefix_rfl)
    fun _ _ _ _ _ _ _ _ _ hwork hbefore => hbefore.trans (hwork.entries ▸ List.prefix_append _ _)

theorem Attends.elsewhere (hs : s.program.Sound) (h : Attends settings s ids)
    (hids : ∀ i ∈ ids, i ∉ (s.program.block b).instrs) :
    ((visitAll settings.rules s ids).program.block b).instrs = (s.program.block b).instrs := by
  induction ids generalizing s with
  | nil => rfl
  | cons id ids ih =>
    have hhead := h.head hs
    have hsound := (hhead.extends hs).sound
    obtain ⟨-, -, hrest⟩ := h
    obtain ⟨hid, hids⟩ := List.forall_mem_cons.mp hids
    have hsame : ((visit settings.rules s id).program.block b).instrs = (s.program.block b).instrs := by
      generalize visit settings.rules s id = s' at hhead
      cases hhead with
      | declined => rfl
      | accepted _ hwork => exact hwork.elsewhere b hid
    rw [visitAll_cons, ih hsound hrest (by rwa [hsame]), hsame]

theorem Attends.split (hs : s.program.Sound) {xs ys : List InstrId}
    (h : Attends settings s (xs ++ id :: ys)) :
    let before := visitAll settings.rules s xs
    s.program.Extends before.program ∧ (∃ b, id ∈ (before.program.block b).instrs) ∧
      Attended settings id before (visit settings.rules before id) ∧
      Attends settings (visit settings.rules before id) ys := by
  obtain ⟨hxs, hrest⟩ := attends_append.mp h
  have hbefore := hxs.extends hs
  exact ⟨hbefore, hrest.1, hrest.head hbefore.sound, hrest.2.2⟩

theorem Attends.origin (hs : s.program.Sound) (h : Attends settings s ids) {r : Replacement}
    (hr : r ∈ (visitAll settings.rules s ids).scheduled) : r ∈ s.scheduled ∨
      ∃ xs id ys heir answer along, ids = xs ++ id :: ys ∧
        Treated settings id (visitAll settings.rules s xs) (visitAll settings.rules s (xs ++ [id])) heir
          answer along ∧
        (r = ⟨id, heir⟩ ∨ r.new = none ∧ r.old ∈ along) := by
  induction ids generalizing s with
  | nil => exact .inl hr
  | cons id ids ih =>
    have hhead := h.head hs
    have hsound := (hhead.extends hs).sound
    rcases ih hsound h.2.2 hr with hmem | ⟨xs, j, ys, heir, answer, along, rfl, hwork, hfound⟩
    · rw [← show visitAll settings.rules s ([] ++ [id]) = visit settings.rules s id from rfl] at hhead hmem
      generalize hlast : visitAll settings.rules s ([] ++ [id]) = s' at hhead hmem
      cases hhead with
      | declined => exact .inl hmem
      | @accepted _ heir answer along _ hwork =>
        rw [hwork.entries, List.mem_append, List.mem_cons, List.mem_map] at hmem
        refine hmem.imp_right fun hnew => ⟨[], id, ids, heir, answer, along, rfl, hlast ▸ hwork, ?_⟩
        rcases hnew with rfl | ⟨i, hi, rfl⟩
        · exact .inl rfl
        · exact .inr ⟨rfl, hi⟩
    · exact .inr ⟨id :: xs, j, ys, heir, answer, along, rfl, hwork, hfound⟩

/-- Whether a rule accepts an instruction. -/
def accepts (rules : List (Rule Addresses)) (s : RuleState Addresses) (id : InstrId) : Bool :=
  match applyFirst rules id s with
  | .ok accepted _ => accepted
  | .error _ _ => false

theorem accepts_of_ok (h : applyFirst settings.rules id s = .ok true s') :
    accepts settings.rules s id = true := by
  unfold accepts
  rw [h]

theorem accepts_of_declined (h : applyFirst settings.rules id s = .ok false s') :
    accepts settings.rules s id = false := by
  unfold accepts
  rw [h]

theorem Attended.of_accepts (h : Attended settings id s s')
    (haccepts : accepts settings.rules s id = true) :
    ∃ heir answer along, Treated settings id s s' heir answer along := by
  cases h with
  | declined hdeclined =>
    rw [accepts_of_declined hdeclined] at haccepts
    cases haccepts
  | accepted _ hwork => exact ⟨_, _, _, hwork⟩

theorem Attends.mem_scheduled (hs : s.program.Sound) {xs ys : List InstrId}
    (h : Attends settings s (xs ++ id :: ys))
    (haccepted : accepts settings.rules (visitAll settings.rules s xs) id = true) :
    id ∈ (visitAll settings.rules s (xs ++ id :: ys)).scheduled.map (·.old) := by
  obtain ⟨hgrown, ⟨b, hid⟩, hvisit, hrest⟩ := h.split hs
  rw [visitAll_append, visitAll_cons]
  have hsound := (hvisit.extends hgrown.sound).sound
  refine List.map_subset _ (hrest.scheduled hsound).subset ?_
  generalize visit settings.rules (visitAll settings.rules s xs) id = s' at hvisit
  cases hvisit with
  | declined hdeclined =>
    unfold accepts at haccepted
    rw [hdeclined] at haccepted
    cases haccepted
  | accepted _ hwork =>
    rw [hwork.entries, List.map_append, List.map_cons]
    exact List.mem_append_right _ List.mem_cons_self

/-! ## 2. Entire blocks -/

end Transform

namespace Program

variable {p q : Program} {busy : BlockId → Prop} {ids js : List InstrId}

/-- If one instruction of a block is among these, all of them are; but for blocks that are not done
    with. -/
def Entire (p : Program) (busy : BlockId → Prop) (ids : List InstrId) : Prop :=
  ∀ b, ¬ busy b → (∃ i ∈ (p.block b).instrs, i ∈ ids) → ∀ i ∈ (p.block b).instrs, i ∈ ids

theorem Entire.append (h : p.Entire busy ids) (hgrown : p.Extends q) (h' : q.Entire busy js) :
    p.Entire busy (ids ++ js) := by
  rintro b hb ⟨i, hi, hmem⟩ j hj
  rcases List.mem_append.mp hmem with hmem | hmem
  · exact List.mem_append_left _ (h b hb ⟨i, hi, hmem⟩ j hj)
  · have hlisted := (hgrown.listed b).subset
    exact List.mem_append_right _ (h' b hb ⟨i, hlisted hi, hmem⟩ j (hlisted hj))

end Program

namespace Transform

open Replacing
open Program (Extends Entire)

variable {settings : RuleSettings} {busy : BlockId → Prop} {limits : WalkLimits}
  {follow : FuncId → Walk LoggedRun Bool} {ids js : List InstrId} {t u v : PathState LoggedRun}

/-- A walk has gone on by a round over these instructions. -/
structure Rounds (settings : RuleSettings) (busy : BlockId → Prop) (t : PathState LoggedRun)
    (ids : List InstrId) (u : PathState LoggedRun) : Prop where
  doomed : u.doomed = t.doomed
  log : u.extra.2 = t.extra.2 ++ ids
  attends : Attends settings (ruleState t) ids
  state : ruleState u = visitAll settings.rules (ruleState t) ids
  whole : t.program.Entire busy ids

theorem Rounds.refl (t : PathState LoggedRun) : Rounds settings busy t [] t where
  doomed := rfl
  log := (List.append_nil _).symm
  attends := trivial
  state := rfl
  whole := by
    rintro b - ⟨i, -, hi⟩
    cases hi

theorem Rounds.extends (h : Rounds settings busy t ids u) (ht : t.program.Sound) :
    t.program.Extends u.program := by
  have hgrown := h.attends.extends ht
  rw [← h.state] at hgrown
  exact hgrown

theorem Rounds.trans (h : Rounds settings busy t ids u) (h' : Rounds settings busy u js v)
    (ht : t.program.Sound) : Rounds settings busy t (ids ++ js) v where
  doomed := h'.doomed.trans h.doomed
  log := by rw [h'.log, h.log, List.append_assoc]
  attends := attends_append.mpr ⟨h.attends, h.state ▸ h'.attends⟩
  state := by rw [h'.state, h.state, visitAll_append]
  whole := h.whole.append (h.extends ht) h'.whole

theorem Rounds.mono {busy' : BlockId → Prop} (h : Rounds settings busy t ids u)
    (hbusy : ∀ b, busy b → busy' b) : Rounds settings busy' t ids u :=
  { h with whole := fun b hb => h.whole b (mt (hbusy b) hb) }

/-- In a sound program a walk goes on by a round over whole blocks. -/
def GoesRound (settings : RuleSettings) (t u : PathState LoggedRun) : Prop :=
  u.doomed = t.doomed ∧ (t.program.Sound → ∃ ids, Rounds settings (fun _ => False) t ids u)

theorem goesRound_pathRelation (settings : RuleSettings) : PathRelation (GoesRound settings) where
  preorder :=
    { refl := fun t => ⟨rfl, fun _ => ⟨[], .refl t⟩⟩
      trans := by
        rintro t u v ⟨hd, h⟩ ⟨hd', h'⟩
        refine ⟨hd'.trans hd, fun ht => ?_⟩
        obtain ⟨ids, hids⟩ := h ht
        obtain ⟨js, hjs⟩ := h' (hids.extends ht).sound
        exact ⟨ids ++ js, hids.trans hjs ht⟩ }
  doomed h := h.1
  books := by
    rintro t u vs ⟨-, h⟩
    refine ⟨rfl, fun ht => ?_⟩
    obtain ⟨ids, hids⟩ := h ht
    exact ⟨ids, rfl, hids.log, hids.attends, hids.state, hids.whole⟩

theorem loggedVisitor_other {rules : List (Rule Addresses)} {v : Value} (hv : v.toInstr? = none)
    {a : Option Value} (h : loggedVisitor rules v t = .ok a u) : u = t := by
  unfold loggedVisitor at h
  dsimp only at h
  split at h
  · rename_i w hvisit
    cases h
    rcases ruleVisitor_ok hvisit with ⟨-, rfl⟩ | ⟨id, _, hid, -⟩
    · rw [hv]
      exact congrArg (fun log => { t with extra := (t.extra.1, log) }) (List.append_nil _)
    · rw [hv] at hid
      cases hid
  · cases h

theorem loggedVisitor_instr {id : InstrId} {b : BlockId} (ht : t.program.Sound)
    (hid : id ∈ (t.program.block b).instrs) {a : Option Value}
    (h : loggedVisitor settings.rules (.instr id) t = .ok a u) :
    a = some (.instr id) ∧ Rounds settings (· = b) t [id] u := by
  unfold loggedVisitor at h
  dsimp only at h
  split at h
  · rename_i w hvisit
    cases h
    obtain ⟨_, _, -, hcurrent⟩ := bind_ok hvisit
    refine ⟨(pure_ok hcurrent).1.symm, ?_⟩
    rcases ruleVisitor_ok hvisit with ⟨hnone, -⟩ | ⟨_, accepted, hv, hdoomed, happly⟩
    · cases hnone
    cases hv
    have hstep : visit settings.rules (ruleState t) id =
        ⟨w.program, w.extra.scheduled, w.extra.addresses⟩ := visit_eq happly
    refine ⟨hdoomed, rfl, ⟨⟨b, hid⟩, ⟨accepted, ?_⟩, trivial⟩, hstep.symm, ?_⟩
    · rw [hstep]
      exact happly
    · rintro c hc ⟨i, hi, hmem⟩
      obtain rfl := List.mem_singleton.mp hmem
      have hb := (ht.mem_instrs.mp hid).symm.trans (ht.mem_instrs.mp hi)
      exact absurd (Option.some.inj hb).symm hc
  · cases h

theorem rounds_visitInstr (hfollow : ∀ f, Keeps (GoesRound settings) (follow f)) {f : FuncId}
    {front front' : Frontier} {id : InstrId} {b : BlockId} (ht : t.program.Sound)
    (hid : id ∈ (t.program.block b).instrs)
    (h : Walk.visitInstr limits (loggedVisitor settings.rules) follow f front id t = .ok front' u) :
    ∃ ids, Rounds settings (· = b) t (id :: ids) u := by
  have := (goesRound_pathRelation settings).preorder
  rcases Walk.visitInstr_cases h with ⟨herased, -⟩ | ⟨-, current, w, hvisit, hrest⟩
  · rw [ht.instr_live hid] at herased
    cases herased
  obtain ⟨rfl, htrial⟩ := loggedVisitor_instr ht hid hvisit
  rcases hrest with ⟨hnone, -⟩ | ⟨hfollowed, -⟩
  · cases hnone
  -- behind the visit only whole blocks are visited
  have hrest : GoesRound settings w u := by
    rcases hfollowed with ⟨rfl, -⟩ | ⟨_, g, answer, -, -, hfollowed⟩
    · exact refl_of (GoesRound settings) _
    · exact hfollow g w answer u hfollowed
  obtain ⟨ids, hids⟩ := hrest.2 (htrial.extends ht).sound
  exact ⟨ids, htrial.trans (hids.mono fun _ => False.elim) ht⟩

theorem rounds_visitInstrs (hfollow : ∀ f, Keeps (GoesRound settings) (follow f)) {f : FuncId}
    {front front' : Frontier} {ids : List InstrId} {b : BlockId} (ht : t.program.Sound)
    (hids : ∀ i ∈ ids, i ∈ (t.program.block b).instrs)
    (h : ids.foldlM (Walk.visitInstr limits (loggedVisitor settings.rules) follow f) front t =
      .ok front' u) : ∃ js, Rounds settings (· = b) t js u ∧ ids ⊆ js := by
  induction ids generalizing front t with
  | nil =>
    obtain ⟨-, rfl⟩ := pure_ok h
    exact ⟨[], .refl t, List.nil_subset _⟩
  | cons id ids ih =>
    rw [List.foldlM_cons] at h
    obtain ⟨front₁, w, hvisit, h⟩ := bind_ok h
    obtain ⟨hid, hids⟩ := List.forall_mem_cons.mp hids
    obtain ⟨js, hjs⟩ := rounds_visitInstr hfollow ht hid hvisit
    have hgrown := hjs.extends ht
    obtain ⟨ks, hks, hsub⟩ := ih hgrown.sound (fun i hi => (hgrown.listed b).subset (hids i hi)) h
    refine ⟨id :: js ++ ks, hjs.trans hks ht, List.cons_subset.mpr ⟨List.mem_cons_self, ?_⟩⟩
    exact List.subset_append_of_subset_right (id :: js) hsub

theorem goesRound_visitBlock (hfollow : ∀ f, Keeps (GoesRound settings) (follow f)) (f : FuncId)
    (front : Frontier) (b : BlockId) :
    Keeps (GoesRound settings)
      (Walk.visitBlock limits (loggedVisitor settings.rules) follow f front b) := by
  intro t front' u h
  have : IsPreorder (PathState LoggedRun) fun t u => u.doomed = t.doomed :=
    { refl := fun _ => rfl, trans := fun _ _ _ h h' => h'.trans h }
  have hvisit := fun v : Value => (visited_loggedVisitor settings.rules v)
  have hdoomed : Keeps (fun t u : PathState LoggedRun => u.doomed = t.doomed)
      (Walk.visitBlock limits (loggedVisitor settings.rules) follow f front b) :=
    Walk.sequential_visitBlock sequential_keeps (fun b t a u h => (hvisit _ t a u h).1)
      (Walk.sequential_visitInstr sequential_keeps (fun _ => (always_throw _).keeps)
        (fun v t a u h => (hvisit v t a u h).1) (fun f t a u h => (hfollow f t a u h).1) f) front b
  refine ⟨hdoomed t front' u h, fun ht => ?_⟩
  unfold Walk.visitBlock at h
  obtain ⟨_, _, hprogram, h⟩ := bind_ok h
  cases hprogram
  by_cases herased : (t.program.block b).erased = true
  · rw [if_pos herased] at h
    obtain ⟨-, rfl⟩ := pure_ok h
    exact ⟨[], .refl t⟩
  rw [if_neg herased] at h
  obtain ⟨_, w, hblock, h⟩ := bind_ok h
  rw [loggedVisitor_other rfl hblock] at h
  obtain ⟨_, _, hprogram, h⟩ := bind_ok h
  cases hprogram
  obtain ⟨ids, hround, hsub⟩ := rounds_visitInstrs hfollow ht (fun _ hi => hi) h
  refine ⟨ids, { hround with whole := fun c _ hc => ?_ }⟩
  by_cases he : c = b
  · subst he
    exact fun i hi => hsub hi
  · exact hround.whole c he hc

theorem goesRound_walk (limits : WalkLimits) (f : FuncId) :
    Keeps (GoesRound settings) (Walk.walk limits (loggedVisitor settings.rules) f) := by
  have := (goesRound_pathRelation settings).preorder
  refine Walk.walkWithin_keepsBlocks (goesRound_pathRelation settings) (fun f t a u h => ?_)
    (fun _ hfollow => goesRound_visitBlock hfollow) limits.maxDepth f
  obtain rfl := loggedVisitor_other rfl h
  exact refl_of _ _

/-! ## 3. Along the execution path, and everywhere -/

theorem attends_forM {t u : PathState RuleRun} {x : Unit} (ht : t.program.Sound)
    (hids : ∀ i ∈ ids, ∃ b, i ∈ (t.program.block b).instrs)
    (h : ids.forM (tryRules settings.rules) t = .ok x u) :
    Attends settings ⟨t.program, t.extra.scheduled, t.extra.addresses⟩ ids ∧
      ⟨u.program, u.extra.scheduled, u.extra.addresses⟩ = visitAll settings.rules
        ⟨t.program, t.extra.scheduled, t.extra.addresses⟩ ids := by
  induction ids generalizing t with
  | nil =>
    obtain ⟨-, rfl⟩ := pure_ok h
    exact ⟨trivial, rfl⟩
  | cons id ids ih =>
    obtain ⟨_, w, htry, h⟩ := bind_ok h
    obtain ⟨⟨b, hid⟩, hids⟩ := List.forall_mem_cons.mp hids
    unfold tryRules at htry
    dsimp only at htry
    split at htry
    · rename_i accepted r hr
      cases htry
      have hstep : visit settings.rules ⟨t.program, t.extra.scheduled, t.extra.addresses⟩ id = r :=
        visit_eq hr
      have hhead : Attends settings ⟨t.program, t.extra.scheduled, t.extra.addresses⟩ [id] :=
        ⟨⟨b, hid⟩, ⟨accepted, hstep ▸ hr⟩, trivial⟩
      have hgrown := hhead.extends ht
      rw [visitAll_cons, visitAll_nil, hstep] at hgrown
      obtain ⟨hrest, hlast⟩ := ih hgrown.sound
        (fun i hi => (hids i hi).imp fun c hc => (hgrown.listed c).subset hc) h
      rw [visitAll_cons, hstep]
      exact ⟨⟨⟨b, hid⟩, ⟨accepted, hstep ▸ hr⟩, hstep ▸ hrest⟩, hlast⟩
    · cases htry

theorem attends_tryEverywhere {t u : PathState RuleRun} {x : Unit} (ht : t.program.Sound)
    {fs : List FuncId} (hfs : fs.Nodup) (hlive : ∀ f ∈ fs, (t.program.func f).erased = false)
    (h : tryEverywhere settings.rules fs t = .ok x u) :
    Attends settings ⟨t.program, t.extra.scheduled, t.extra.addresses⟩
        (fs.flatMap t.program.instrsOf) ∧
      ⟨u.program, u.extra.scheduled, u.extra.addresses⟩ = visitAll settings.rules
        ⟨t.program, t.extra.scheduled, t.extra.addresses⟩ (fs.flatMap t.program.instrsOf) := by
  induction fs generalizing t with
  | nil =>
    obtain ⟨-, rfl⟩ := pure_ok h
    exact ⟨trivial, rfl⟩
  | cons f fs ih =>
    obtain ⟨hf, hlive⟩ := List.forall_mem_cons.mp hlive
    obtain ⟨hnot, hfs⟩ := List.nodup_cons.mp hfs
    unfold tryEverywhere at h
    obtain ⟨_, _, hprogram, h⟩ := bind_ok h
    cases hprogram
    obtain ⟨_, w, hfirst, h⟩ := bind_ok h
    obtain ⟨hattends, hlast⟩ := attends_forM ht
      (fun i (hi : i ∈ t.program.instrsOf f) => (List.mem_flatMap.mp hi).imp fun _ hb => hb.2) hfirst
    have hgrown := hattends.extends ht
    rw [← hlast] at hgrown
    -- in the other functions nothing has been put in meanwhile
    have hsame : ∀ g ∈ fs, w.program.instrsOf g = t.program.instrsOf g := by
      intro g hg
      unfold Program.instrsOf
      rw [hgrown.func g (Program.func_lt_of_live (hlive g hg))]
      refine List.flatMap_congr fun b hb => ?_
      have helsewhere := hattends.elsewhere (b := b) ht fun i hi hmem => ?_
      · rw [← hlast] at helsewhere
        exact helsewhere
      · have hown := (ht.mem_instrsOf.mp hi).symm.trans (ht.functionOf_of_mem hb hmem)
        exact hnot (Option.some.inj hown ▸ hg)
    obtain ⟨hrest, hend⟩ := ih hgrown.sound hfs
      (fun g hg => by
        rw [hgrown.func g (Program.func_lt_of_live (hlive g hg))]
        exact hlive g hg) h
    rw [List.flatMap_congr hsame] at hrest hend
    rw [List.flatMap_cons, visitAll_append, ← hlast]
    exact ⟨attends_append.mpr ⟨hattends, hlast ▸ hrest⟩, hend⟩

/-- **The instructions on which a transformation tries its rules, in order**: those on the execution
    path, or all instructions of all functions. -/
def tried (settings : RuleSettings) (s : TransformSettings) (q : Program) (a : Addresses) :
    List InstrId :=
  if s.executionPathOnly then visitOrder settings.rules s q a else q.liveFunctions.flatMap q.instrsOf

/-- The state that the rules are first tried in. -/
def startOf (c : Compilation) : RuleState Addresses := ⟨c.program, [], c.addresses⟩

/-- The state that the rules leave behind. -/
def lastOf (settings : RuleSettings) (s : TransformSettings) (c : Compilation) : RuleState Addresses :=
  visitAll settings.rules (startOf c) (tried settings s c.program c.addresses)

/-- **What has been done when the rules have been tried**: they have gone a round over whole blocks, and
    in the end the entry points may have been marked. -/
structure Went (settings : RuleSettings) (s : TransformSettings) (c : Compilation) (run : RuleRun)
    (c' : Compilation) : Prop where
  attends : Attends settings (startOf c) (tried settings s c.program c.addresses)
  entire : c.program.Entire (fun _ => False) (tried settings s c.program c.addresses)
  scheduled : run.scheduled = (lastOf settings s c).scheduled
  addresses : run.addresses = (lastOf settings s c).extra
  program : c'.program = if s.executionPathOnly
    then (s.entryPoints c.program).foldl (·.updateFunc · (annotate s run.addresses))
      (lastOf settings s c).program
    else (lastOf settings s c).program

theorem entire_everywhere {p : Program} (hp : p.Sound) :
    p.Entire (fun _ => False) (p.liveFunctions.flatMap p.instrsOf) := by
  rintro b - ⟨i, hi, hmem⟩ j hj
  obtain ⟨f, hf, hif⟩ := List.mem_flatMap.mp hmem
  obtain ⟨c, hc, hic⟩ := List.mem_flatMap.mp hif
  obtain rfl := Option.some.inj ((hp.mem_instrs.mp hi).symm.trans (hp.mem_instrs.mp hic))
  exact List.mem_flatMap.mpr ⟨f, hf, List.mem_flatMap.mpr ⟨b, hc, hj⟩⟩

theorem runRules_went {s : TransformSettings} {c c' : Compilation} {run : RuleRun}
    (hp : c.program.Sound)
    (h : runRules settings.rules s (s.entryPoints c.program) c = .ok run c') :
    Went settings s c run c' := by
  unfold runRules at h
  split at h
  · rename_i x t htry
    cases h
    unfold tryAll at htry
    by_cases hpath : s.executionPathOnly = true
    · rw [if_pos hpath] at htry
      obtain ⟨_, w, hwalk, hmark⟩ := bind_ok htry
      obtain rfl := modify_ok hmark
      obtain ⟨v, hlogged, rfl, horder⟩ := loggedWalk_ok hwalk
      have := (goesRound_pathRelation settings).preorder
      have hround : GoesRound settings { program := c.program, extra := ({ addresses := c.addresses }, []) }
          v := by
        refine sequential_keeps.forM (fun entry => ?_) _ _ _ v hlogged
        exact keeps_bind (goesRound_walk s.limits entry) fun _ => keeps_pure _
      obtain ⟨ids, hids⟩ := hround.2 hp
      have htried : tried settings s c.program c.addresses = ids := by
        rw [tried, if_pos hpath, horder, hids.log]
        rfl
      rw [← htried] at hids
      have hlast : ruleState v = lastOf settings s c := hids.state
      exact
        { attends := hids.attends
          entire := hids.whole
          scheduled := congrArg RuleState.scheduled hlast
          addresses := congrArg RuleState.extra hlast
          program := by
            rw [if_pos hpath, ← hlast]
            rfl }
    · rw [if_neg hpath] at htry
      obtain ⟨_, _, hprogram, htry⟩ := bind_ok htry
      cases hprogram
      obtain ⟨hattends, hlast⟩ := attends_tryEverywhere (t := ⟨c.program, [], [], ⟨c.addresses, [], 0⟩⟩)
        hp c.program.nodup_liveFunctions (fun f hf => Program.mem_liveFunctions.mp hf) htry
      have htried : tried settings s c.program c.addresses =
          c.program.liveFunctions.flatMap c.program.instrsOf := if_neg hpath
      rw [← htried] at hattends hlast
      exact
        { attends := hattends
          entire := htried ▸ entire_everywhere hp
          scheduled := congrArg RuleState.scheduled hlast
          addresses := congrArg RuleState.extra hlast
          program := by
            rw [if_neg hpath]
            exact congrArg RuleState.program hlast }
  · cases h

section

variable {s : TransformSettings} {c c' : Compilation} {run : RuleRun}

theorem Went.sameFrame (h : Went settings s c run c') :
    (lastOf settings s c).program.SameFrame c'.program ∧
      ∀ i, c'.program.instr i = (lastOf settings s c).program.instr i := by
  rw [h.program]
  split
  · exact sameFrame_annotated _ _ _ _
  · exact ⟨.refl _, fun _ => rfl⟩

theorem Went.extends (h : Went settings s c run c') (hp : c.program.Sound) :
    c.program.Extends (lastOf settings s c).program :=
  h.attends.extends hp

end

/-! ## 4. Carrying the schedule out -/

end Transform

namespace Replacing

open Program (Extends Calls pointer)

variable {settings : RuleSettings} {s s' : RuleState Addresses} {id : InstrId}
  {heir answer : Option InstrId} {along : List InstrId} {b : BlockId}

/-- A pointer to a constant that stands ready to take a place. -/
structure Guest (p : Program) (a : InstrId) (bits : Nat) (address : Int) : Prop where
  kind : (p.instr a).kind = .cast .inttoptr
  operands : (p.instr a).operands = [.ofInt bits address]
  live : (p.instr a).erased = false
  detached : (p.instr a).parent = none

theorem guest_of_pointer {p : Program} {a : InstrId} {ty : Ty} {bits : Nat} {address : Int}
    (h : p.instr a = pointer ty bits address) : Guest p a bits address := by
  refine ⟨?_, ?_, ?_, ?_⟩ <;> rw [h] <;> rfl

theorem Guest.congr {p q : Program} {a : InstrId} {bits : Nat} {address : Int} (h : Guest p a bits address)
    (hinstr : ∀ i, q.instr i = p.instr i) : Guest q a bits address := by
  refine ⟨?_, ?_, ?_, ?_⟩ <;> rw [hinstr]
  exacts [h.kind, h.operands, h.live, h.detached]

theorem Work.guest (h : Work settings id s s' heir answer) {a : InstrId} (ha : heir = some a) :
    s.program.instrs.size ≤ a.index ∧ ∃ bits address, Guest s'.program a bits address := by
  obtain ⟨hnew, ty, bits, address, hpointer⟩ := h.pointer ha
  exact ⟨hnew, bits, address, guest_of_pointer hpointer⟩

theorem Guest.accepted {a : InstrId} {bits : Nat} {address : Int} (h : Guest s.program a bits address)
    (hwork : Treated settings id s s' heir answer along) : Guest s'.program a bits address := by
  obtain ⟨hkind, -, hparent, herased, -⟩ := hwork.grown.instr a (Program.instr_lt_of_live h.live)
  refine ⟨hkind.trans h.kind, ?_, herased.trans h.live, hparent.trans h.detached⟩
  rw [hwork.operands a h.live, h.operands, List.map_singleton, Value.turn_ofInt]

/-- Of what is scheduled each is there, and what is to take its place stands ready. -/
structure Pending (s : RuleState Addresses) : Prop where
  live : ∀ r ∈ s.scheduled, (s.program.instr r.old).erased = false
  stand : ∀ r ∈ s.scheduled, r.new.isSome = true → (s.program.instr r.old).parent.isSome = true
  olds : ∀ r ∈ s.scheduled, (s.program.instr r.old).kind ≠ .cast .inttoptr
  guests : ∀ r ∈ s.scheduled, ∀ a, r.new = some a → ∃ bits address, Guest s.program a bits address
  news : (s.scheduled.filterMap (·.new)).Nodup

theorem Pending.accepted (h : Pending s) (hs : s.program.Sound) (hid : id ∈ (s.program.block b).instrs)
    (hwork : Treated settings id s s' heir answer along) : Pending s' := by
  have hlive := hs.instr_live hid
  have hmem : ∀ {r}, r ∈ s'.scheduled ↔ r ∈ s.scheduled ∨ r = ⟨id, heir⟩ ∨
      ∃ i ∈ along, ⟨i, none⟩ = r := by
    intro r
    rw [hwork.entries, List.mem_append, List.mem_cons, List.mem_map]
  have hold := fun {i} (hi : (s.program.instr i).erased = false) =>
    hwork.grown.instr i (Program.instr_lt_of_live hi)
  refine ⟨fun r hr => ?_, fun r hr hnew => ?_, fun r hr => ?_, fun r hr a ha => ?_, ?_⟩
  · refine hwork.grown.live ?_
    rcases hmem.mp hr with hr | rfl | ⟨i, hi, rfl⟩
    · exact h.live r hr
    · exact hlive
    · exact (hwork.served i hi).1
  · rcases hmem.mp hr with hr | rfl | ⟨i, hi, rfl⟩
    · rw [(hold (h.live r hr)).2.2.1]
      exact h.stand r hr hnew
    · rw [(hold hlive).2.2.1, hs.mem_instrs.mp hid]
      rfl
    · cases hnew
  · rcases hmem.mp hr with hr | rfl | ⟨i, hi, rfl⟩
    · rw [(hold (h.live r hr)).1]
      exact h.olds r hr
    · rw [(hold hlive).1]
      exact hwork.work.target.not_cast _
    · obtain ⟨hilive, hserves⟩ := hwork.served i hi
      rw [(hold hilive).1]
      rcases hserves.part with (hfetch | hfetch) | ⟨hbitcast | helement, -⟩
      · exact hfetch.not_cast
      · exact hfetch.not_cast
      · exact fun hcast => nomatch hbitcast.symm.trans hcast
      · exact helement.not_cast
  · rcases hmem.mp hr with hr | rfl | ⟨i, hi, rfl⟩
    · obtain ⟨bits, address, hguest⟩ := h.guests r hr a ha
      exact ⟨bits, address, hguest.accepted hwork⟩
    · exact (hwork.work.guest ha).2
    · cases ha
  · have halong : (along.map fun i => (⟨i, none⟩ : Replacement)).filterMap (·.new) = [] :=
      List.filterMap_eq_nil_iff.mpr fun r hr => by
        obtain ⟨i, -, rfl⟩ := List.mem_map.mp hr
        rfl
    rw [hwork.entries, List.filterMap_append, List.filterMap_cons, halong]
    cases hheir : heir with
    | none => exact (List.append_nil _).symm ▸ h.news
    | some a =>
      refine h.news.append (List.nodup_singleton a) fun i hi hia => ?_
      obtain rfl := List.mem_singleton.mp hia
      obtain ⟨r, hr, hnew⟩ := List.mem_filterMap.mp hi
      obtain ⟨bits, address, hguest⟩ := h.guests r hr i hnew
      exact Nat.not_lt.mpr (hwork.work.guest hheir).1 (Program.instr_lt_of_live hguest.live)

theorem Pending.ready (h : Pending s) (hs : s.program.Sound)
    (holds : (s.scheduled.map (·.old)).Nodup) : Program.Ready s.scheduled s.program where
  sound := hs
  olds := holds
  news := h.news
  live := h.live
  stand := h.stand
  guests r hr a ha := by
    obtain ⟨bits, address, hguest⟩ := h.guests r hr a ha
    refine ⟨fun hmem => ?_, hguest.live, hguest.detached⟩
    obtain ⟨x, hx, rfl⟩ := List.mem_map.mp hmem
    exact h.olds x hx hguest.kind

end Replacing

namespace Transform

open Replacing
open Program (Ready Spliced Carried)

variable {settings : RuleSettings} {s : TransformSettings} {c c' : Compilation} {run : RuleRun}
  {stats stats' : TransformStatistics} {st : RuleState Addresses} {ids : List InstrId}

theorem Attends.pending (hs : st.program.Sound) (h : Attends settings st ids) (hstart : st.scheduled = []) :
    Pending (visitAll settings.rules st ids) := by
  refine h.keeps Pending hs ?_ fun _ _ _ _ _ _ b hs hid hwork hbefore => hbefore.accepted hs hid hwork
  refine ⟨?_, ?_, ?_, ?_, ?_⟩ <;> rw [hstart]
  · exact List.forall_mem_nil _
  · exact List.forall_mem_nil _
  · exact List.forall_mem_nil _
  · exact List.forall_mem_nil _
  · exact List.nodup_nil

/-- **A round**: visits, and a schedule that is never refused. -/
theorem applyRules_went (hp : c.program.Sound)
    (h : applyRules settings.rules s stats c = .ok stats' c') :
    ∃ run c₁ n q, Went settings s c run c₁ ∧ Ready run.scheduled c₁.program ∧
      carryOut run.scheduled c₁.program = .ok n q ∧ Spliced run.scheduled.reverse c₁.program q ∧
      Carried run.scheduled.reverse c₁.program q ∧ c'.program = q := by
  unfold applyRules at h
  obtain ⟨_, _, hget, h⟩ := bind_ok h
  obtain ⟨rfl, rfl⟩ := get_ok hget
  obtain ⟨run, c₁, hrun, h⟩ := bind_ok h
  obtain ⟨n, c₂, hcarry, h⟩ := bind_ok h
  obtain ⟨-, rfl⟩ := pure_ok h
  obtain ⟨q, hq, rfl⟩ := compile_ok.mp hcarry
  have hwent := runRules_went hp hrun
  obtain ⟨hframe, hinstr⟩ := hwent.sameFrame
  have hsound := (hwent.extends hp).sound
  have hsound₁ := (hframe.evolves hsound).1
  obtain ⟨holds, -, hcarried, -⟩ := (carryOut_replaces hsound₁ run.scheduled).2 n q hq
  have hready : Ready run.scheduled c₁.program := by
    have hpending : Pending (lastOf settings s c) := hwent.attends.pending hp rfl
    rw [hwent.scheduled] at holds ⊢
    exact (hpending.ready hsound holds).congr hsound₁ hinstr
  obtain ⟨m, q', hq', hspliced⟩ := Program.carryOut_spliced hready
  obtain rfl : q' = q := by
    have heq := hq'.symm.trans hq
    injection heq
  exact ⟨run, c₁, n, q', hwent, hready, hq, hspliced, hcarried, rfl⟩

end Transform

end QirProfile
