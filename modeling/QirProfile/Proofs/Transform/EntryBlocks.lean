import QirProfile.Proofs.Rule.CarriedOut
import QirProfile.Proofs.Transform.DeadCodeVerified
import QirProfile.Proofs.Transform.EntryPoints

/-!
# Entry blocks before the rules

A block is closed if one of its instructions ends it. The phases before the rules change functions
that are entry points in two ways only: folding puts shorter branches in the place of branches and
invokes, and dead code is deleted. Neither leaves an entry block without its end.
-/

namespace QirProfile

open Program

variable {e : Bool} {p q r : Program} {c f : FuncId} {b : BlockId} {id t : InstrId}
  {rs : List Replacement}

/-! ## 1. Folding -/

namespace Program

/-- One of the instructions that close the block is not scheduled. -/
def Unscheduled (rs : List Replacement) (p : Program) (b : BlockId) : Prop :=
  ∃ t ∈ (p.block b).instrs, p.Closing t ∧ t ∉ rs.map (·.old)

end Program

namespace Replacing

variable {s s' : RuleState Unit}

theorem Settled.unscheduled (h : Settled e c id s s') (hp : s.program.Sound)
    (holds : ∀ r ∈ s.scheduled, r.old.index < s.program.instrs.size)
    (hb : Unscheduled s.scheduled s.program b) : Unscheduled s'.scheduled s'.program b := by
  obtain ⟨t, ht, hclosing, hnot⟩ := hb
  have hmem : ∀ {i}, i ∈ s'.scheduled.map (·.old) ↔ i ∈ s.scheduled.map (·.old) ∨ i = id := by
    intro i
    rw [h.scheduled, List.map_append, List.mem_append]
    exact or_congr_right List.mem_singleton
  by_cases hid : t = id
  · subst hid
    obtain ⟨new, hnew, hsize, hcloses⟩ := h.relieves.relief b (hp.mem_instrs.mp ht)
    refine ⟨new, hnew, hcloses, fun hold => Nat.not_lt.mpr hsize ?_⟩
    rcases hmem.mp hold with hold | rfl
    · obtain ⟨r, hr, rfl⟩ := List.mem_map.mp hold
      exact holds r hr
    · exact hclosing.made
  · exact ⟨t, h.relieves.listed b ht, h.tweaks.sameEnds.closing t hclosing,
      fun hold => (hmem.mp hold).elim hnot hid⟩

theorem applyAll_unscheduled {ids : List InstrId} {u : PUnit} (hp : s.program.Sound)
    (hids : ∀ i ∈ ids, Inside c s.program i)
    (holds : ∀ r ∈ s.scheduled, r.old.index < s.program.instrs.size)
    (hb : Unscheduled s.scheduled s.program b)
    (h : (ids.forM fun id => discard (applyFirst (controlFlowRules e) id)) s = .ok u s') :
    Unscheduled s'.scheduled s'.program b := by
  induction ids generalizing s with
  | nil =>
    obtain ⟨-, rfl⟩ := pure_ok h
    exact hb
  | cons id ids ih =>
    obtain ⟨hid, hrest⟩ := List.forall_mem_cons.mp hids
    obtain ⟨_, s₁, happly, hmore⟩ := bind_ok h
    obtain ⟨_, happly⟩ := discard_ok happly
    rcases applyFirst_settles hp hid happly with ⟨rfl, -⟩ | hsettled
    · exact ih hp hrest holds hb hmore
    · obtain ⟨hp₁, hspares⟩ := hsettled.tweaks.spares hp
      have hsize := hspares.buries.instrs
      refine ih hp₁ (fun i hi => hsettled.tweaks.inside hp (hrest i hi)) (fun r hr => ?_)
        (hsettled.unscheduled hp holds hb) hmore
      rw [hsettled.scheduled] at hr
      rcases List.mem_append.mp hr with hr | hr
      · exact Nat.lt_of_lt_of_le (holds r hr) hsize
      · obtain rfl := List.mem_singleton.mp hr
        exact Nat.lt_of_lt_of_le hid.1 hsize

end Replacing

namespace Program

theorem scheduleAll_unscheduled (hp : p.Sound) (hb : p.Closed b)
    (h : scheduleAll (Replacing.controlFlowRules e) (p.instrsOf c) p = .ok rs q) :
    q.Unscheduled rs b := by
  obtain ⟨t, ht, hclosing⟩ := hb
  unfold scheduleAll at h
  dsimp only at h
  split at h
  · rename_i s hall
    cases h
    exact Replacing.applyAll_unscheduled (s := ⟨p, [], ()⟩) hp hp.inside nofun
      ⟨t, ht, hclosing, List.not_mem_nil⟩ hall
  · cases h

theorem Carried.mem_of_unscheduled (h : Carried rs p q) (ht : t ∈ (p.block b).instrs)
    (hnot : t ∉ rs.map (·.old)) : t ∈ (q.block b).instrs := by
  rw [h.listed b]
  refine List.mem_filterMap.mpr ⟨t, ht, stands_of_not_mem fun hmem => hnot ?_⟩
  exact List.map_subset _ (List.filter_subset_self _) hmem

theorem keepsClosed_foldAway {v : Value} (hv : p.fold? id = some v) (h : p.foldAway id v = .ok q) :
    KeepsClosed p q := by
  obtain ⟨-, rfl⟩ := foldAway_ok.mp h
  have hturned : SameEnds p (p.replaceUses (.instr id) v) := sameEnds_replaceUses rfl v
  exact trans_of KeepsClosed (hturned.keepsClosed fun _ => List.Subset.refl _)
    (keepsClosed_dropInstr (hturned.plain id (fold?_cases hv).1))

theorem round_keepsClosed {p₁ : Program} {m : Nat} (hp : p.Sound)
    (hschedule : scheduleAll (Replacing.controlFlowRules e) (p.instrsOf c) p = .ok rs p₁)
    (hcarry : carryOut rs p₁ = .ok m q) : KeepsClosed p q := by
  have hscheduled := scheduleAll_scheduled hp hschedule
  have hends := (carryOut_scheduled hp hscheduled hcarry).1.sameEnds
  refine ⟨trans_of SameEnds hscheduled.tweaks.sameEnds hends, fun b hb => ?_⟩
  obtain ⟨t, ht, hclosing, hnot⟩ := scheduleAll_unscheduled hp hb hschedule
  have hcarried := ((carryOut_replaces (hscheduled.tweaks.spares hp).1 rs).2 m q hcarry).2.2.1
  refine ⟨t, hcarried.mem_of_unscheduled ht ?_, hends.closing t hclosing⟩
  rwa [List.map_reverse, List.mem_reverse]

theorem foldRounds_keepsClosed {fuel n : Nat} (hp : p.Sound)
    (h : QirProfile.foldRounds (Replacing.controlFlowRules e) c fuel p = .ok n q) :
    q.Sound ∧ KeepsClosed p q := by
  induction fuel generalizing p n with
  | zero =>
    obtain ⟨-, rfl⟩ := pure_ok h
    exact ⟨hp, refl_of KeepsClosed _⟩
  | succ fuel ih =>
    unfold QirProfile.foldRounds at h
    obtain ⟨folded, p₁, hfold, h⟩ := bind_ok h
    have hconstants := Transform.tryMake_ok.mp (compileEdit_ok.mp hfold)
    have hp₁ := ((foldRounds_tweaks (e := e) hp hconstants).spares hp).1
    have hfirst := foldConstants_keeps (R := KeepsClosed) (fun _ _ _ _ => keepsClosed_foldAway)
      hconstants
    obtain ⟨_, _, hget, h⟩ := bind_ok h
    cases hget
    obtain ⟨rs, p₂, hschedule, h⟩ := bind_ok h
    split at h
    · rename_i hnone
      obtain ⟨-, rfl⟩ := pure_ok h
      obtain ⟨rfl, -⟩ := (scheduleAll_scheduled hp₁ hschedule).none (List.isEmpty_iff.mp hnone)
      exact ⟨hp₁, hfirst⟩
    · obtain ⟨removed, p₃, hcarry, h⟩ := bind_ok h
      obtain ⟨k, p₄, hrounds, h⟩ := bind_ok h
      obtain ⟨-, rfl⟩ := pure_ok h
      have hround := round_keepsClosed hp₁ hschedule hcarry
      have hp₃ := ((round_tweaks hp₁ hschedule hcarry).1.spares hp₁).1
      obtain ⟨hq, hrest⟩ := ih hp₃ hrounds
      exact ⟨hq, trans_of KeepsClosed hfirst (trans_of KeepsClosed hround hrest)⟩

theorem foldControlFlow_keepsClosed {n : Nat} (hp : p.Sound)
    (h : foldControlFlow (Replacing.controlFlowRules e) c p = .ok n q) :
    q.Sound ∧ KeepsClosed p q := by
  unfold foldControlFlow at h
  obtain ⟨_, _, hget, h⟩ := bind_ok h
  cases hget
  exact foldRounds_keepsClosed hp h

/-! ## 2. Copies of calls -/

/-- The functions with the attribute stay what they are, and their closed blocks stay closed. -/
structure Guards (attr : String) (p q : Program) : Prop where
  ends : SameEnds p q
  func : ∀ f, (p.func f).hasAttribute attr = true → q.func f = p.func f
  closed : ∀ f, (p.func f).hasAttribute attr = true → ∀ b ∈ (p.func f).blocks, p.Closed b → q.Closed b

instance (attr : String) : IsPreorder Program (Guards attr) where
  refl p := ⟨refl_of SameEnds p, fun _ _ => rfl, fun _ _ _ _ hb => hb⟩
  trans p q r h₁ h₂ := by
    have hkept : ∀ f, (p.func f).hasAttribute attr = true → (q.func f).hasAttribute attr = true :=
      fun f hf => by rwa [h₁.func f hf]
    refine ⟨trans_of SameEnds h₁.ends h₂.ends,
      fun f hf => (h₂.func f (hkept f hf)).trans (h₁.func f hf), fun f hf b hb hclosed => ?_⟩
    refine h₂.closed f (hkept f hf) b ?_ (h₁.closed f hf b hb hclosed)
    rwa [h₁.func f hf]

variable {attr : String}

theorem KeepsClosed.guards (h : KeepsClosed p q) (hfunc : ∀ f, q.func f = p.func f) :
    Guards attr p q :=
  ⟨h.ends, fun f _ => hfunc f, fun _ _ b _ => h.closed b⟩

theorem SameEnds.guards (h : SameEnds p q) (hfunc : ∀ f, q.func f = p.func f)
    (hblock : ∀ b, (q.block b).instrs = (p.block b).instrs) : Guards attr p q :=
  (h.keepsClosed fun b => by rw [hblock]; exact List.Subset.refl _).guards hfunc

theorem guards_withCopy (hp : p.Sound) (source : FuncId) (constants : List (Nat × Value)) :
    Guards attr p (p.withCopy source constants) where
  ends := sameEnds_withCopy source constants
  func f hf := func_withCopy_old (func_lt_of_hasAttribute hf)
  closed f _ b hb hclosed := by
    obtain ⟨t, ht, hclosing⟩ := hclosed
    refine ⟨t, ?_, (sameEnds_withCopy source constants).closing t hclosing⟩
    rwa [block_withCopy_old (block_lt_of_parent (hp.mem_blocks.mp hb))]

theorem guards_dropFunction (hp : p.Sound) (hc : (p.func c).hasAttribute attr = false) :
    Guards attr p (p.dropFunction c) := by
  have hne : ∀ f, (p.func f).hasAttribute attr = true → c ≠ f := by
    rintro f hf rfl
    rw [hc] at hf
    cases hf
  refine ⟨sameEnds_dropFunction p c, fun f hf => func_dropFunction hp (hne f hf),
    fun f hf b hb hclosed => ?_⟩
  obtain ⟨t, ht, hclosing⟩ := hclosed
  refine ⟨t, ?_, (sameEnds_dropFunction p c).closing t hclosing⟩
  rwa [block_dropFunction hp]
  rw [hp.mem_blocks.mp hb]
  exact fun h => hne f hf (Option.some.inj h).symm

end Program

namespace Transform

variable {s : TransformSettings} {attr : String}

/-- A step of a walk guards the functions with the attribute, and dooms nothing that ends a block. -/
def Secures (attr : String) (t t' : PathState Nat) : Prop :=
  t.program.Sound → (∀ i ∈ t.doomed, (t.program.instr i).isTerminator = false) →
    t'.program.Sound ∧ Guards attr t.program t'.program ∧
      ∀ i ∈ t'.doomed, (t'.program.instr i).isTerminator = false

instance (attr : String) : IsPreorder (PathState Nat) (Secures attr) where
  refl _ hs hdoomed := ⟨hs, refl_of (Guards attr) _, hdoomed⟩
  trans _ _ _ h₁ h₂ hs hdoomed := by
    obtain ⟨ht, hguards, hplain⟩ := h₁ hs hdoomed
    obtain ⟨hu, hguards', hplain'⟩ := h₂ ht hplain
    exact ⟨hu, trans_of (Guards attr) hguards hguards', hplain'⟩

theorem eraseDoomed_guards {ids : List InstrId} {t t' : PathState Nat} {u : Unit}
    (ht : t.program.Sound) (hids : ∀ i ∈ ids, (t.program.instr i).isTerminator = false)
    (h : Walk.eraseDoomed ids t = .ok u t') :
    t'.program.Sound ∧ Guards attr t.program t'.program := by
  induction ids generalizing t with
  | nil =>
    obtain ⟨-, rfl⟩ := pure_ok h
    exact ⟨ht, refl_of (Guards attr) _⟩
  | cons i ids ih =>
    obtain ⟨hi, hrest⟩ := List.forall_mem_cons.mp hids
    unfold Walk.eraseDoomed at h
    obtain ⟨_, _, hprogram, h⟩ := bind_ok h
    cases hprogram
    split at h
    · exact ih ht hrest h
    · obtain ⟨_, t₁, herase, h⟩ := bind_ok h
      obtain ⟨q, hdrop, rfl⟩ := walkEdit_ok.mp herase
      have hdrop := attempt_ok.mp hdrop
      have hkept := keepsClosed_eraseInstr hi hdrop
      obtain ⟨ht', hguards⟩ := ih (evolves_eraseInstr hdrop ht).1
        (fun j hj => hkept.ends.plain j (hrest j hj)) h
      exact ⟨ht', trans_of (Guards attr) (hkept.guards (sameFunctions_eraseInstr hdrop).func) hguards⟩

theorem walkRelation_secures : WalkRelation (Secures attr) where
  preorder := inferInstance
  leave {_ t u _} hkept herase hs hdoomed := by
    obtain ⟨ht, hguards, hplain⟩ := hkept hs nofun
    obtain ⟨hu, hguards'⟩ : u.program.Sound ∧ Guards attr t.program u.program :=
      eraseDoomed_guards ht hplain herase
    have hall := trans_of (Guards attr) hguards hguards'
    exact ⟨hu, hall, fun i hi => hall.ends.plain i (hdoomed i hi)⟩

theorem secures_specialiseCall (v : Value) :
    Keeps (Secures s.entryPointAttr) (specialiseCall s v) := by
  intro t current t' h
  cases v with
  | instr id =>
    rcases specialiseCall_cases h with ⟨-, -, rfl⟩ |
      ⟨marker, g, c, call, p₁, p₂, p₃, p₄, q, n, hexp, hcopy, hinsert, hkind, hfold, hspent, -, rfl⟩
    · exact refl_of (Secures _) _
    intro hs hdoomed
    have hplain : (t.program.instr id).isTerminator = false :=
      Instr.isTerminator_of_isCall (by rw [Instr.isCall, (expandable?_eq_some.mp hexp).1])
    obtain ⟨-, -, rfl, -⟩ := specialise_ok.mp hcopy
    have hp₁ := (evolves_specialise hcopy hs).1
    have h₁ : Guards s.entryPointAttr t.program _ :=
      guards_withCopy hs g (constantArguments (t.program.instr id).arguments)
    obtain ⟨b, front, back, hins⟩ := insert_before_ok hinsert
    have hp₂ := (hins.evolves hp₁).1
    have h₂ : Guards s.entryPointAttr t.program p₂ :=
      trans_of (Guards _) h₁ (hins.keepsClosed.guards hins.func)
    -- the new call takes over the name, the marker and the uses of the old one
    have hp₃ := ((sameFrame_setKind hkind).evolves
      ((sameFrame_takeName p₂ id call).evolves hp₂).1).1
    have hcall : ((p₂.takeName id call).instr call).isCall = true := by
      obtain ⟨name, hname⟩ := instr_takeName p₂ id call call
      obtain ⟨name', hmade⟩ := hins.made
      rw [hname, hmade]
      rfl
    have hturned : Guards s.entryPointAttr p₂ (p₃.replaceUses (.instr id) (.instr call)) := by
      refine SameEnds.guards (trans_of SameEnds (sameEnds_takeName id call) (trans_of SameEnds
        (sameEnds_setKind hcall hkind) (sameEnds_replaceUses rfl _)))
        (fun f => ?_) fun b => ((sameFrame_setKind hkind).block b).2.1
      exact (sameFunctions_setKind hkind).func f
    have h₃ := trans_of (Guards _) h₂ hturned
    obtain ⟨hp₄, hfolded⟩ := foldControlFlow_keepsClosed
      ((sameFrame_replaceUses p₃ _ _).evolves hp₃).1 hfold
    have h₄ : Guards s.entryPointAttr t.program p₄ := trans_of (Guards _) h₃
      (hfolded.guards (foldControlFlow_functions _ _ _ _ _ hfold).func)
    have hlast : q.Sound ∧ Guards s.entryPointAttr t.program q := by
      rcases hspent with rfl | ⟨-, hattr, herase⟩
      · exact ⟨hp₄, h₄⟩
      · obtain ⟨-, rfl⟩ := (eraseFunction_ok hp₄).mp herase
        exact ⟨(evolves_eraseFunction herase hp₄).1,
          trans_of (Guards _) h₄ (guards_dropFunction hp₄ hattr)⟩
    refine ⟨hlast.1, hlast.2, fun i hi => hlast.2.ends.plain i ?_⟩
    rcases List.mem_append.mp hi with hi | hi
    · exact hdoomed i hi
    · obtain rfl := List.mem_singleton.mp hi
      exact hplain
  | _ =>
    obtain ⟨-, rfl⟩ := pure_ok h
    exact refl_of (Secures _) _

theorem secures_expandEntries (entries : List FuncId) :
    Keeps (Secures s.entryPointAttr) (expandEntries s entries) := by
  refine keeps_expandEntries walkRelation_secures (fun entry t n t' h => ?_)
    secures_specialiseCall entries
  obtain ⟨q, hfold, rfl⟩ := walkCompile_ok.mp h
  intro hs hdoomed
  obtain ⟨hq, hkept⟩ := foldControlFlow_keepsClosed hs hfold
  exact ⟨hq, hkept.guards (foldControlFlow_functions _ _ _ _ _ hfold).func,
    fun i hi => hkept.ends.plain i (hdoomed i hi)⟩

theorem specialiseCalls_guards {n : Nat} (hp : p.Sound) (h : specialiseCalls s p = .ok n q) :
    q.Sound ∧ Guards s.entryPointAttr p q := by
  unfold specialiseCalls at h
  split at h
  · rename_i t hexpand
    cases h
    obtain ⟨hq, hguards, -⟩ := secures_expandEntries _ _ _ _ hexpand hp nofun
    exact ⟨hq, hguards⟩
  · cases h

/-! ## 3. The search for active code -/

/-- The program stays, marks are only added, and what is newly visited is marked with its entry. -/
structure Marks (t u : PathState ActiveCode) : Prop where
  program : u.program = t.program
  functions : t.extra.functions ⊆ u.extra.functions
  blocks : t.extra.blocks ⊆ u.extra.blocks
  visited : t.visited ⊆ u.visited
  doomed : u.doomed = t.doomed
  entered : ∀ f ∈ u.visited, f ∈ t.visited ∨ f ∈ u.extra.functions ∧
    ∀ b, (t.program.func f).entryBlock? = some b → b ∈ u.extra.blocks

/-- A step of a search through a sound program. -/
def Searches (t u : PathState ActiveCode) : Prop := t.program.Sound → Marks t u

instance : IsPreorder (PathState ActiveCode) Searches where
  refl _ _ := ⟨rfl, fun _ h => h, fun _ h => h, fun _ h => h, rfl, fun _ h => .inl h⟩
  trans t u w h₁ h₂ ht := by
    have hone := h₁ ht
    have htwo := h₂ (hone.program ▸ ht)
    refine ⟨htwo.program.trans hone.program, List.Subset.trans hone.functions htwo.functions,
      List.Subset.trans hone.blocks htwo.blocks, List.Subset.trans hone.visited htwo.visited,
      htwo.doomed.trans hone.doomed, fun f hf => ?_⟩
    rcases htwo.entered f hf with hf | hentered
    · exact (hone.entered f hf).imp_right fun ⟨hfunc, hentry⟩ =>
        ⟨htwo.functions hfunc, fun b hb => htwo.blocks (hentry b hb)⟩
    · exact .inr (hone.program ▸ hentered)

theorem searches_record (t : PathState ActiveCode) (v : Value) :
    Searches t { t with extra := t.extra.record v } := by
  refine fun _ => ⟨rfl, fun g hg => ?_, fun c hc => ?_, fun _ h => h, rfl, fun _ h => .inl h⟩
  · cases v with
    | func f => exact ActiveCode.mem_functions_record.mpr (.inr hg)
    | _ => exact hg
  · cases v with
    | block b => exact ActiveCode.mem_blocks_record.mpr (.inr hc)
    | _ => exact hc

theorem searches_mark (v : Value) : Keeps Searches (mark v) := by
  intro t w u h
  cases h
  exact searches_record t v

section

variable {limits : WalkLimits} {follow : FuncId → Walk ActiveCode Bool} {t u : PathState ActiveCode}

theorem searches_visitInstr (hfollow : ∀ g, Keeps Searches (follow g)) (f : FuncId)
    (front : Frontier) (i : InstrId) : Keeps Searches (Walk.visitInstr limits mark follow f front i) :=
  Walk.sequential_visitInstr sequential_keeps (fun _ => (always_throw _).keeps) searches_mark hfollow f
    front i

theorem searches_visitBlock (hfollow : ∀ g, Keeps Searches (follow g)) (f : FuncId)
    (front : Frontier) (b : BlockId) : Keeps Searches (Walk.visitBlock limits mark follow f front b) :=
  Walk.sequential_visitBlock sequential_keeps (fun _ => searches_mark _)
    (searches_visitInstr hfollow f) front b

theorem marked_of_visitBlock {front front' : Frontier} (hfollow : ∀ g, Keeps Searches (follow g))
    (ht : t.program.Sound) (hlive : (t.program.block b).erased = false)
    (h : Walk.visitBlock limits mark follow f front b t = .ok front' u) : b ∈ u.extra.blocks := by
  unfold Walk.visitBlock at h
  obtain ⟨_, _, hprogram, h⟩ := bind_ok h
  cases hprogram
  rw [hlive, if_neg Bool.false_ne_true] at h
  obtain ⟨_, t₁, hmark, h⟩ := bind_ok h
  cases hmark
  obtain ⟨_, _, hprogram, h⟩ := bind_ok h
  cases hprogram
  have hrest : Searches _ u :=
    sequential_keeps.foldlM (searches_visitInstr hfollow f) _ _ _ _ _ h
  exact (hrest ht).blocks (ActiveCode.mem_blocks_record.mpr (.inl rfl))

theorem visitFunction_marks (hfollow : ∀ g, Keeps Searches (follow g)) (ht : t.program.Sound)
    (hb : (t.program.func f).entryBlock? = some b) {a : Unit}
    (h : Walk.visitFunction limits mark follow f t = .ok a u) :
    Marks t u ∧ f ∈ u.extra.functions ∧ b ∈ u.extra.blocks := by
  unfold Walk.visitFunction at h
  obtain ⟨_, _, hprogram, h⟩ := bind_ok h
  cases hprogram
  rw [hb] at h
  obtain ⟨_, t₁, hmark, h⟩ := bind_ok h
  cases hmark
  have hfunc := searches_record t (.func f)
  obtain ⟨front, t₂, hvisit, h⟩ := bind_ok h
  have hone : Searches _ t₂ := searches_visitBlock hfollow f _ _ _ _ _ hvisit
  have hrest : Searches t₂ u := Walk.sequential_visitBlocks sequential_keeps
    (searches_visitBlock hfollow f) _ _ _ _ _ h
  have hentry := marked_of_visitBlock (t := { t with extra := t.extra.record (.func f) }) hfollow ht
    (ht.block_live_of_listed (List.mem_of_head? hb)) hvisit
  have ht₂ : t₂.program.Sound := (hone ht).program ▸ ht
  exact ⟨trans_of Searches hfunc (trans_of Searches hone hrest) ht,
    (trans_of Searches hone hrest ht).functions (ActiveCode.mem_functions_record.mpr (.inl rfl)),
    (hrest ht₂).blocks hentry⟩

theorem walkWithin_marks {depth : Nat} {answer : Bool} (ht : t.program.Sound)
    (h : Walk.walkWithin limits mark depth f t = .ok answer u) : Marks t u ∧
      (0 < depth → (t.program.func f).erased = false → (t.program.func f).isDeclaration = false →
        f ∈ u.visited) := by
  induction depth generalizing f t u answer with
  | zero =>
    obtain ⟨-, rfl⟩ := pure_ok h
    exact ⟨refl_of Searches t ht, fun hpos => absurd hpos (Nat.lt_irrefl 0)⟩
  | succ depth ih =>
    rw [Walk.walkWithin_apply] at h
    split at h
    · rename_i hover
      cases h
      refine ⟨refl_of Searches t ht, fun _ hlive hdefined => ?_⟩
      simpa [Walk.passesOver, hlive, hdefined] using hover
    · rename_i hover
      unfold Walk.walkBody at h
      obtain ⟨_, u₁, hfun, h⟩ := bind_ok h
      obtain ⟨entry, hentry⟩ : ∃ b, (t.program.func f).entryBlock? = some b := by
        refine Option.isSome_iff_exists.mp (List.isSome_head?.mpr fun hnone => hover ?_)
        simp [Walk.passesOver, Func.isDeclaration, hnone]
      have hfollow : ∀ g, Keeps Searches (Walk.walkWithin limits mark depth g) :=
        fun g t _ u h ht => (ih ht h).1
      obtain ⟨hmarks, hfunc, hblock⟩ := visitFunction_marks
        (t := { t with visited := f :: t.visited, doomed := [] }) hfollow ht hentry hfun
      -- nothing is doomed, so nothing is erased
      obtain ⟨_, _, hget, h⟩ := bind_ok h
      obtain ⟨rfl, rfl⟩ := get_ok hget
      rw [hmarks.doomed] at h
      cases h
      refine ⟨⟨hmarks.program, hmarks.functions, hmarks.blocks,
        fun g hg => hmarks.visited (List.mem_cons_of_mem f hg), rfl, fun g hg => ?_⟩,
        fun _ _ _ => hmarks.visited List.mem_cons_self⟩
      rcases hmarks.entered g hg with hg | hentered
      · rcases List.mem_cons.mp hg with rfl | hg
        · refine .inr ⟨hfunc, fun c hc => ?_⟩
          rwa [← Option.some.inj (hentry.symm.trans hc)]
        · exact .inl hg
      · exact .inr hentered

theorem markRoots_marks {roots : List FuncId} {a : Unit} (ht : t.program.Sound)
    (h : markRoots s roots t = .ok a u) : Marks t u ∧ (0 < s.maxRecursion →
      ∀ f ∈ roots, (t.program.func f).erased = false → (t.program.func f).isDeclaration = false →
        f ∈ u.visited) := by
  induction roots generalizing t with
  | nil =>
    obtain ⟨-, rfl⟩ := pure_ok h
    exact ⟨refl_of Searches t ht, nofun⟩
  | cons root rest ih =>
    unfold markRoots at h
    obtain ⟨_, _, hmod, h⟩ := bind_ok h
    obtain rfl := modify_ok hmod
    obtain ⟨_, t₂, hwalk, h⟩ := bind_ok h
    obtain ⟨hone, hvisited⟩ := walkWithin_marks (t := { t with extra := t.extra.record (.func root) })
      ht hwalk
    have ht₂ : t₂.program.Sound := hone.program ▸ ht
    obtain ⟨hrest, hall⟩ := ih ht₂ h
    refine ⟨trans_of Searches (searches_record t _)
      (trans_of Searches (fun _ => hone) fun _ => hrest) ht, fun hdepth f hf hlive hdefined => ?_⟩
    rcases List.mem_cons.mp hf with rfl | hf
    · exact hrest.visited (hvisited hdepth hlive hdefined)
    · refine hall hdepth f hf ?_ ?_ <;> rwa [hone.program]

theorem searches_markRounds (fuel : Nat) (considered : List FuncId) :
    Keeps Searches (markRounds s fuel considered) := by
  induction fuel generalizing considered with
  | zero => exact keeps_pure _
  | succ fuel ih =>
    unfold markRounds
    refine keeps_bind keeps_get fun t => ?_
    dsimp only
    split
    · exact keeps_pure _
    · exact keeps_bind (fun t _ u h ht => (markRoots_marks ht h).1) fun _ => ih _

end

theorem activeCode_entries {a : ActiveCode} (hp : p.Sound) (hdepth : 0 < s.maxRecursion)
    (h : activeCode s p = .ok a) (hf : (p.func f).hasAttribute s.entryPointAttr = true)
    (hlive : (p.func f).erased = false) (hb : (p.func f).entryBlock? = some b) :
    f ∈ a.functions ∧ b ∈ a.blocks := by
  unfold activeCode at h
  split at h
  swap
  · cases h
  rename_i t hsearch
  cases h
  have hdefined : (p.func f).isDeclaration = false := by
    rw [Func.isDeclaration, List.isEmpty_eq_false_iff_exists_mem]
    exact ⟨b, List.mem_of_head? hb⟩
  -- the first round begins with all entry points
  unfold markRounds at hsearch
  obtain ⟨_, _, hget, hsearch⟩ := bind_ok hsearch
  obtain ⟨rfl, rfl⟩ := get_ok hget
  dsimp only at hsearch
  generalize hroots : (p.liveFunctions.filter _) = roots at hsearch
  have hmem : f ∈ roots := by
    rw [← hroots, List.mem_filter, mem_liveFunctions]
    refine ⟨hlive, ?_⟩
    simp [(isRoot_iff hp).mpr (.inl hf)]
  rw [if_neg (by simpa using List.ne_nil_of_mem hmem)] at hsearch
  obtain ⟨_, u, hround, hsearch⟩ := bind_ok hsearch
  obtain ⟨hfirst, hvisited⟩ := markRoots_marks hp hround
  have hrest : Searches u t := searches_markRounds _ _ _ _ _ hsearch
  have hlater := hrest (hfirst.program ▸ hp)
  obtain ⟨hfunc, hentry⟩ := (hfirst.entered f (hvisited hdepth f hmem hlive hdefined)).resolve_left
    List.not_mem_nil
  exact ⟨hlater.functions hfunc, hlater.blocks (hentry b hb)⟩

end Transform

/-! ## 4. Dead code -/

namespace Program

/-- A sound program stays sound, and what ends blocks goes on doing so. -/
def KeepsEnds (p q : Program) : Prop := p.Sound → q.Sound ∧ SameEnds p q

instance : IsPreorder Program KeepsEnds where
  refl p hp := ⟨hp, refl_of SameEnds p⟩
  trans _ _ _ h₁ h₂ hp := by
    obtain ⟨hq, hone⟩ := h₁ hp
    obtain ⟨hr, htwo⟩ := h₂ hq
    exact ⟨hr, trans_of SameEnds hone htwo⟩

theorem Trims.keepsEnds (h : p.Trims q) (hends : SameEnds p q) : KeepsEnds p q :=
  fun hp => ⟨(h hp).1, hends⟩

/-- A live function with the attribute and a closed entry block. -/
structure EntersAt (attr : String) (p : Program) (f : FuncId) (b : BlockId) : Prop where
  attributed : (p.func f).hasAttribute attr = true
  live : (p.func f).erased = false
  entry : (p.func f).entryBlock? = some b
  closed : p.Closed b

variable {attr : String}

theorem Guards.entersAt (h : Guards attr p q) (he : EntersAt attr p f b) : EntersAt attr q f b := by
  have hfunc := h.func f he.attributed
  refine ⟨hfunc ▸ he.attributed, hfunc ▸ he.live, hfunc ▸ he.entry, ?_⟩
  exact h.closed f he.attributed b (List.mem_of_head? he.entry) he.closed

end Program

namespace Transform

variable {s : TransformSettings} {a : ActiveCode}

theorem Deletes.keepsEnds {F : FuncId → Prop} (h : Deletes F p q) : KeepsEnds p q := by
  have hundef : ∀ (old : Value) ty, old.toBlock? = none → KeepsEnds p (p.replaceUses old (.undef ty)) :=
    fun old ty hold => (trims_replaceUses (fun b => mentions_undef ty b) p).keepsEnds
      (sameEnds_replaceUses hold _)
  cases h with
  | @remove id ty hlive =>
    have hframe := sameFrame_replaceUses p (.instr id) (.undef ty)
    exact trans_of KeepsEnds (hundef (.instr id) ty rfl)
      ((trims_dropInstr ((hframe.instr id).2.trans hlive)).keepsEnds (sameEnds_dropInstr _ id))
  | undefine ty => exact hundef _ ty rfl
  | forgetEntry id source =>
    exact (trims_forgetEntry p id source).keepsEnds (sameEnds_forgetEntry p id source)
  | dropBlock hlive => exact (trims_dropBlock hlive).keepsEnds (sameEnds_dropBlock p _)
  | eraseFunction hf h =>
    intro hp
    obtain ⟨-, rfl⟩ := (eraseFunction_ok hp).mp h
    exact (trims_dropFunction _).keepsEnds (sameEnds_dropFunction p _) hp

theorem keepsEnds_deleteDeadCode {n : Nat × Nat} (h : deleteDeadCode a p = .ok n q) :
    KeepsEnds p q :=
  deleteDeadCode_steps (fun _ _ => Deletes.keepsEnds) h

theorem replacePhis_keepsClosed {done rest : List (InstrId × Value)} {u : Unit} (hp : p.Sound)
    (hrest : ∀ x ∈ rest, (p.instr x.1).isTerminator = false)
    (h : replacePhis done rest p = .ok u q) : q.Sound ∧ KeepsClosed p q ∧ p.SameFunctions q := by
  induction rest generalizing p done with
  | nil =>
    obtain ⟨-, rfl⟩ := pure_ok h
    exact ⟨hp, refl_of KeepsClosed p, rfl⟩
  | cons x rest ih =>
    obtain ⟨phi, w⟩ := x
    obtain ⟨hphi, hrest⟩ := List.forall_mem_cons.mp hrest
    unfold replacePhis at h
    obtain ⟨_, p₁, hname, h⟩ := bind_ok h
    obtain ⟨_, p₂, huses, h⟩ := bind_ok h
    obtain rfl := modify_ok huses
    obtain ⟨_, p₃, herase, h⟩ := bind_ok h
    have herase := attempt_ok.mp herase
    have hnamed : p₁.Sound ∧ KeepsClosed p p₁ ∧ p.SameFunctions p₁ := by
      cases htarget : (settle done w).toInstr? with
      | none =>
        rw [htarget] at hname
        obtain ⟨-, rfl⟩ := pure_ok hname
        exact ⟨hp, refl_of KeepsClosed p, rfl⟩
      | some target =>
        rw [htarget] at hname
        obtain rfl := modify_ok hname
        exact ⟨((sameFrame_takeName p phi target).evolves hp).1,
          (sameEnds_takeName phi target).keepsClosed fun _ => List.Subset.refl _, rfl⟩
    obtain ⟨hp₁, hkept₁, hfuncs₁⟩ := hnamed
    have hturned : KeepsClosed p₁ (p₁.replaceUses (.instr phi) (settle done w)) :=
      (sameEnds_replaceUses rfl _).keepsClosed fun _ => List.Subset.refl _
    have hp₂ := ((sameFrame_replaceUses p₁ (.instr phi) (settle done w)).evolves hp₁).1
    have hkept₂ := trans_of KeepsClosed hkept₁ hturned
    have hgone := keepsClosed_eraseInstr (hkept₂.ends.plain phi hphi) herase
    have hkept₃ := trans_of KeepsClosed hkept₂ hgone
    obtain ⟨hq, hmore, hfuncs⟩ := ih (evolves_eraseInstr herase hp₂).1
      (fun y hy => hkept₃.ends.plain y.1 (hrest y hy)) h
    exact ⟨hq, trans_of KeepsClosed hkept₃ hmore, trans_of SameFunctions hfuncs₁
      (trans_of SameFunctions (sameFunctions_eraseInstr herase) hfuncs)⟩

theorem replaceSettledPhis_keepsClosed {n : Nat} (hp : p.Sound)
    (h : replaceSettledPhis a p = .ok n q) : q.Sound ∧ KeepsClosed p q ∧ p.SameFunctions q := by
  unfold replaceSettledPhis at h
  obtain ⟨_, _, hget, h⟩ := bind_ok h
  obtain ⟨rfl, rfl⟩ := get_ok hget
  obtain ⟨_, p₁, hreplace, h⟩ := bind_ok h
  obtain ⟨-, rfl⟩ := pure_ok h
  refine replacePhis_keepsClosed hp (fun x hx => ?_) hreplace
  obtain ⟨-, hinput⟩ := mem_settledPhis.mp hx
  exact Instr.isTerminator_of_isPhi (activeInput?_some hinput).1

theorem head?_of_sublist {α : Type} {x : α} {xs ys : List α} (h : xs.Sublist ys) (hnodup : ys.Nodup)
    (hfirst : ys.head? = some x) (hx : x ∈ xs) : xs.head? = some x := by
  obtain ⟨rest, rfl⟩ := List.head?_eq_some_iff.mp hfirst
  cases h with
  | cons _ h => exact absurd (h.subset hx) (List.nodup_cons.mp hnodup).1
  | cons_cons _ _ => rfl

/-- An active entry block is kept when dead code goes. -/
theorem deleteDeadCode_entersAt {n : Nat × Nat} {attr : String} (hp : p.Sound)
    (he : EntersAt attr p f b) (hfunc : f ∈ a.functions) (hblock : b ∈ a.blocks)
    (h : deleteDeadCode a p = .ok n q) : q.Sound ∧ EntersAt attr q f b := by
  obtain ⟨hwithin, -, -⟩ := deleteDeadCode_ok hp h
  have hends := (keepsEnds_deleteDeadCode h hp).2
  have hlisted := List.mem_of_head? he.entry
  have hspared : b ∉ prunedBlocks p a := by
    refine List.mem_append.not.mpr (not_or.mpr ⟨not_mem_of_active hp hfunc hlisted, fun hmem => ?_⟩)
    obtain ⟨-, -, -, -, hnot⟩ := mem_deadBlocks.mp hmem
    exact hnot hblock
  have hheading := hwithin.shrinks.func f
  refine ⟨hwithin.sound, ?_, ?_, ?_, ?_⟩
  · rw [hheading]
    exact he.attributed
  · rw [hwithin.func f fun hmem => (mem_deadFunctions.mp hmem).2.1 hfunc]
    exact he.live
  · have hstill : b ∈ (q.func f).blocks := by
      rw [hwithin.sound.mem_blocks, (hwithin.block b hspared).1]
      exact hp.mem_blocks.mp hlisted
    exact head?_of_sublist (hwithin.shrinks.blocks f) (hp.nodup_blocks f) he.entry hstill
  · obtain ⟨t, ht, hclosing⟩ := he.closed
    exact ⟨t, mem_of_within hwithin hspared ht hclosing.closes.ends, hends.closing t hclosing⟩

theorem removeDeadCode_entersAt {stats stats' : TransformStatistics} (hp : p.Sound)
    (hdepth : 0 < s.maxRecursion) (h : removeDeadCode s stats p = .ok stats' q) :
    q.Sound ∧ ∀ f b, EntersAt s.entryPointAttr p f b → EntersAt s.entryPointAttr q f b := by
  obtain ⟨a, phis, p₁, n, hactive, hphis, hdelete⟩ := removeDeadCode_parts h
  obtain ⟨hp₁, hkept, hfuncs⟩ := replaceSettledPhis_keepsClosed hp hphis
  refine ⟨(keepsEnds_deleteDeadCode hdelete hp₁).1, fun f b he => ?_⟩
  obtain ⟨hfunc, hblock⟩ := activeCode_entries hp hdepth hactive he.attributed he.live he.entry
  have he₁ : EntersAt s.entryPointAttr p₁ f b := (hkept.guards hfuncs.func).entersAt he
  exact (deleteDeadCode_entersAt hp₁ he₁ hfunc hblock hdelete).2

end Transform

end QirProfile
