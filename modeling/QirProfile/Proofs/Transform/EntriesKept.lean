import QirProfile.Proofs.Transform.EntryBlocks
import QirProfile.Proofs.Transform.Rounds
import QirProfile.Proofs.Transform.RulesVerified

/-!
# Entry blocks are kept

The rules find calls by their patterns, and only those that go by a name alone can take the end of a
block for a call. So the entry blocks of the entry points keep their ends also while the rules are at
work, and with what the earlier phases keep this is so of the whole transformation.
-/

namespace QirProfile

open Program Replacing

variable {settings : RuleSettings} {s s' : RuleState Addresses} {id t : InstrId}
  {ids along : List InstrId} {heir answer : Option InstrId}

/-! ## 1. What is scheduled closes no block -/

namespace Replacing

theorem Work.removed_of_closes (h : Work settings id s s' heir answer)
    (hcloses : (s.program.instr id).Closes) : ∃ name ∈ settings.removed, s.program.Calls id name := by
  cases h with
  | @removed name hname hcalls => exact ⟨name, hname, hcalls⟩
  | released hcall =>
    rcases hcall with hcall | hcall <;>
      exact absurd hcloses (hcall.removable (.inl (Nat.le_refl 1))).not_closes
  | placed hcall =>
    cases hcall with
    | one hcall => exact absurd hcloses (hcall.removable (.inl (Nat.zero_le 1))).not_closes
    | array _ hcall => exact absurd hcloses (hcall.removable (.inl (Nat.le_refl 1))).not_closes
  | read hreads =>
    obtain ⟨align, hload⟩ := hreads.load
    have hends := hcloses.ends
    rw [Instr.isTerminator, hload] at hends
    cases hends
  | measured hcall => exact absurd hcloses (hcall.removable (.inl (Nat.le_refl 1))).not_closes
  | compared hcompares => exact absurd hcloses hcompares.removable.not_closes

theorem Value.turn_block (id : InstrId) (answer : Option InstrId) (b : BlockId) :
    Value.turn id answer (.block b) = .block b := by
  cases answer with
  | none => rfl
  | some a =>
    have hne : Value.instr id ≠ .block b := nofun
    exact Value.substitute_block (.instr a) hne

theorem Treated.closing (h : Treated settings id s s' heir answer along)
    (ht : (s.program.instr t).erased = false ∧ (s.program.instr t).Closes) :
    (s'.program.instr t).erased = false ∧ (s'.program.instr t).Closes :=
  ⟨h.grown.live ht.1, ht.2.map (h.grown.instr t (instr_lt_of_live ht.1)).1 (h.operands t ht.1)
    fun b => ⟨b, Value.turn_block id answer b⟩⟩

end Replacing

namespace Transform

theorem Attends.closing_unscheduled (hs : s.program.Sound) (h : Attends settings s ids)
    (ht : (s.program.instr t).erased = false ∧ (s.program.instr t).Closes)
    (hquiet : t ∈ ids → ∀ name ∈ settings.removed, ¬ s.program.Calls t name)
    (hstart : t ∉ s.scheduled.map (·.old)) :
    t ∉ (visitAll settings.rules s ids).scheduled.map (·.old) := by
  intro hmem
  obtain ⟨r, hr, rfl⟩ := List.mem_map.mp hmem
  rcases h.origin hs hr with hold | ⟨xs, id, ys, heir, answer, along, rfl, hwork, hfound⟩
  · exact hstart (List.mem_map_of_mem hold)
  obtain ⟨hxs, -⟩ := attends_append.mp h
  have hgrown := hxs.extends hs
  obtain ⟨-, hcloses⟩ := hxs.keeps
    (fun u => (u.program.instr r.old).erased = false ∧ (u.program.instr r.old).Closes) hs ht
    fun _ _ _ _ _ _ _ _ _ hwork => hwork.closing
  rcases hfound with rfl | ⟨-, halong⟩
  · obtain ⟨name, hname, hcalls⟩ := hwork.work.removed_of_closes hcloses
    refine hquiet (List.mem_append_right _ List.mem_cons_self) name hname ?_
    exact (hgrown.calls_iff (instr_lt_of_live ht.1) (not_inserted_of_removed hname)).mp hcalls
  · exact (hwork.served _ halong).2.loose hcloses

/-! ## 2. Walks that end at invokes -/

variable {limits : WalkLimits} {t u : PathState LoggedRun}

/-- A walk has come past these instructions, and none of them is an invoke. -/
def GoesPast (t u : PathState LoggedRun) : Prop :=
  u.doomed = t.doomed ∧ SameKinds t.program u.program ∧ ∃ ids, u.extra.2 = t.extra.2 ++ ids ∧
    ∀ i ∈ ids, i.index < u.program.instrs.size ∧ (u.program.instr i).kind ≠ .invoke

theorem goesPast_pathRelation : PathRelation GoesPast where
  preorder :=
    { refl := fun t => ⟨rfl, refl_of SameKinds t.program, [], (List.append_nil _).symm, nofun⟩
      trans := by
        rintro t u v ⟨hd, hkinds, ids, hlog, hids⟩ ⟨hd', hkinds', js, hlog', hjs⟩
        refine ⟨hd'.trans hd, hkinds.trans hkinds', ids ++ js, ?_,
          List.forall_mem_append.mpr ⟨?_, hjs⟩⟩
        · rw [hlog', hlog, List.append_assoc]
        · intro i hi
          obtain ⟨hlt, hkind⟩ := hids i hi
          exact ⟨Nat.lt_of_lt_of_le hlt hkinds'.1, by rwa [hkinds'.2 i hlt]⟩ }
  doomed h := h.1
  books h := ⟨rfl, h.2⟩

theorem loggedVisitor_ok {a : Option Value}
    (h : loggedVisitor settings.rules (.instr id) t = .ok a u) : a = some (.instr id) ∧
      u.doomed = t.doomed ∧ SameKinds t.program u.program ∧ u.extra.2 = t.extra.2 ++ [id] := by
  unfold loggedVisitor at h
  dsimp only at h
  split at h
  · rename_i w hvisit
    cases h
    obtain ⟨_, _, -, hcurrent⟩ := bind_ok hvisit
    rcases ruleVisitor_ok hvisit with ⟨hnone, -⟩ | ⟨_, accepted, hv, hdoomed, happly⟩
    · cases hnone
    · cases hv
      exact ⟨(pure_ok hcurrent).1.symm, hdoomed, sameKinds_applyFirst happly, rfl⟩
  · cases h

theorem goesPast_walk (hlimits : limits.assumeNoExcept = false) (f : FuncId) :
    Keeps GoesPast (Walk.walk limits (loggedVisitor settings.rules) f) := by
  have := goesPast_pathRelation.preorder
  refine walk_endsAtInvokes goesPast_pathRelation (fun h => h.2.1) hlimits
    (fun v hv t _ u h => ?_) (fun id t _ u hlive h => ?_) f
  · obtain rfl := loggedVisitor_other hv h
    exact refl_of GoesPast _
  · obtain ⟨rfl, hdoomed, hkinds, hlog⟩ := loggedVisitor_ok h
    have hlt := instr_lt_of_live hlive
    refine ⟨rfl, hkinds, fun hkind => ⟨hdoomed, hkinds, [id], hlog, ?_⟩⟩
    exact List.forall_mem_singleton.mpr ⟨Nat.lt_of_lt_of_le hlt hkinds.1, by rwa [hkinds.2 id hlt]⟩

theorem tried_not_invoke {s : TransformSettings} {stats stats' : TransformStatistics}
    {c c' : Compilation} (hpath : s.executionPathOnly = true) (hexcept : s.assumeNoExcept = false)
    (h : applyRules settings.rules s stats c = .ok stats' c') {i : InstrId}
    (hi : i ∈ tried settings s c.program c.addresses) (hlt : i.index < c.program.instrs.size) :
    (c.program.instr i).kind ≠ .invoke := by
  have := goesPast_pathRelation.preorder
  unfold applyRules at h
  obtain ⟨_, _, hget, h⟩ := bind_ok h
  obtain ⟨rfl, rfl⟩ := get_ok hget
  obtain ⟨run, c₁, hrun, -⟩ := bind_ok h
  unfold runRules at hrun
  split at hrun
  swap
  · cases hrun
  rename_i x t htry
  unfold tryAll at htry
  rw [if_pos hpath] at htry
  obtain ⟨_, w, hwalk, -⟩ := bind_ok htry
  obtain ⟨v, hlogged, -, horder⟩ := loggedWalk_ok hwalk
  obtain ⟨-, hkinds, ids, hlog, hids⟩ : GoesPast
      { program := c.program, extra := ({ addresses := c.addresses }, []) } v := by
    refine sequential_keeps.forM (fun entry => keeps_bind ?_ fun _ => keeps_pure _) _ _ _ v hlogged
    exact goesPast_walk hexcept entry
  rw [tried, if_pos hpath, horder, hlog] at hi
  rw [← hkinds.2 i hlt]
  exact (hids i hi).2

end Transform

/-! ## 3. Entry blocks in the end -/

/-- The function is there, and it begins with this block, which is there too and not empty. -/
structure Program.Begins (p : Program) (f : FuncId) (b : BlockId) : Prop where
  live : (p.func f).erased = false
  entry : (p.func f).entryBlock? = some b
  present : (p.block b).erased = false
  filled : (p.block b).instrs ≠ []

namespace Transform

variable {s : TransformSettings} {c c' : Compilation} {stats stats' : TransformStatistics}
  {f : FuncId} {b : BlockId}

/-- The rules take the end of no entry block for a call: invokes end the walk, or none that stands in
    an entry block invokes a function whose calls are removed. -/
def Sheltered (settings : RuleSettings) (s : TransformSettings) (p : Program) : Prop :=
  s.executionPathOnly = true ∧ s.assumeNoExcept = false ∨
    ∀ f ∈ s.entryPoints p, ∀ b, (p.func f).entryBlock? = some b →
      ∀ i ∈ (p.block b).instrs, p.QuietAt settings.removed i

theorem mem_entryPoints {p : Program} : f ∈ s.entryPoints p ↔
    (p.func f).erased = false ∧ (p.func f).hasAttribute s.entryPointAttr = true := by
  rw [TransformSettings.entryPoints, functionsWithAttribute, List.mem_filter, mem_liveFunctions]

theorem Sheltered.not_calls (h : Sheltered settings s c.program)
    (he : EntersAt s.entryPointAttr c.program f b) {t : InstrId} (ht : t ∈ (c.program.block b).instrs)
    (hclosing : c.program.Closing t) (hrun : applyRules settings.rules s stats c = .ok stats' c')
    (htried : t ∈ tried settings s c.program c.addresses) :
    ∀ name ∈ settings.removed, ¬ c.program.Calls t name := by
  intro name hname hcalls
  have hinvoke : (c.program.instr t).kind = .invoke := by
    refine hcalls.kind.resolve_left ?_
    rintro ⟨marker, hcall⟩
    have hends := hclosing.closes.ends
    rw [Instr.isTerminator, hcall] at hends
    cases hends
  rcases h with ⟨hpath, hexcept⟩ | hquiet
  · exact tried_not_invoke hpath hexcept hrun htried hclosing.made hinvoke
  · obtain ⟨k, hk, rfl⟩ := hcalls
    exact hquiet f (mem_entryPoints.mpr ⟨he.live, he.attributed⟩) b he.entry t ht hinvoke k hk hname

theorem applyRules_begins (hp : c.program.Sound) (he : EntersAt s.entryPointAttr c.program f b)
    (hsheltered : Sheltered settings s c.program)
    (h : applyRules settings.rules s stats c = .ok stats' c') : c'.program.Begins f b := by
  obtain ⟨t, ht, hclosing⟩ := he.closed
  have hquiet := fun htried => hsheltered.not_calls he ht hclosing h htried
  obtain ⟨run, c₁, n, q, hwent, -, -, -, hcarried, rfl⟩ := applyRules_went hp h
  have hgrown := hwent.extends hp
  have hframe := hwent.sameFrame.1
  have hnot : t ∉ (lastOf settings s c).scheduled.map (·.old) :=
    hwent.attends.closing_unscheduled hp ⟨hp.instr_live ht, hclosing.closes⟩ hquiet List.not_mem_nil
  rw [← hwent.scheduled] at hnot
  have hstill : t ∈ (c'.program.block b).instrs := by
    refine hcarried.mem_of_unscheduled ?_ (by rwa [List.map_reverse, List.mem_reverse])
    rw [(hframe.block b).2.1]
    exact (hgrown.listed b).subset ht
  obtain ⟨hblocks, herased, -⟩ := hframe.func f
  have hfunc := hgrown.func f (func_lt_of_live he.live)
  have hentry : (c'.program.func f).entryBlock? = some b := by
    rw [hcarried.func, Func.entryBlock?, hblocks, hfunc]
    exact he.entry
  refine ⟨?_, hentry, ?_, List.ne_nil_of_mem hstill⟩
  · rw [hcarried.func, herased, hfunc]
    exact he.live
  · exact hcarried.sound.block_live_of_listed (List.mem_of_head? hentry)

theorem prepare_parts (hp : c.program.Sound) (h : prepare s c = .ok stats c') :
    ∃ p, p.Sound ∧ Guards s.entryPointAttr c.program p ∧
      (s.deleteDeadCode = true ∧ (∃ st, removeDeadCode s st p = .ok stats c'.program) ∨
        s.deleteDeadCode = false ∧ c'.program = p) := by
  unfold prepare at h
  obtain ⟨cloned, c₁, hclone, h⟩ := bind_ok h
  have hcopied : c₁.program.Sound ∧ Guards s.entryPointAttr c.program c₁.program := by
    split at hclone
    · obtain ⟨q, hq, rfl⟩ := compile_ok.mp hclone
      exact specialiseCalls_guards hp hq
    · obtain ⟨-, rfl⟩ := pure_ok hclone
      exact ⟨hp, refl_of (Guards _) _⟩
  refine ⟨c₁.program, hcopied.1, hcopied.2, ?_⟩
  split at h
  · rename_i hdelete
    obtain ⟨q, hq, rfl⟩ := compile_ok.mp h
    exact .inl ⟨hdelete, _, hq⟩
  · rename_i hkeep
    obtain ⟨-, rfl⟩ := pure_ok h
    exact .inr ⟨Bool.eq_false_iff.mpr hkeep, rfl⟩

theorem prepare_entersAt (hp : c.program.Sound)
    (hdepth : s.deleteDeadCode = true → 0 < s.maxRecursion) (h : prepare s c = .ok stats c')
    (he : EntersAt s.entryPointAttr c.program f b) :
    c'.program.Sound ∧ EntersAt s.entryPointAttr c'.program f b := by
  obtain ⟨p, hsound, hguards, ⟨hdelete, st, hremove⟩ | ⟨-, hsame⟩⟩ := prepare_parts hp h
  · obtain ⟨hlast, hkept⟩ := removeDeadCode_entersAt hsound (hdepth hdelete) hremove
    exact ⟨hlast, hkept f b (hguards.entersAt he)⟩
  · rw [hsame]
    exact ⟨hsound, hguards.entersAt he⟩

/-- The entry blocks of entry points stay and end as they should, if the limit is not 0 where dead
    code is deleted and no rule takes their ends for calls. -/
theorem run_keepsEntries (hp : c.program.Sound) (hv : c.program.verify = .ok ())
    (hinvokes : ∀ i, c.program.Directed i)
    (hdepth : s.deleteDeadCode = true → 0 < s.maxRecursion)
    (hsheltered : ∀ stats c₁, prepare s { c with addresses := setReuse s c.addresses } = .ok stats c₁ →
      Sheltered settings s c₁.program)
    (h : run settings.rules s c = .ok stats c') :
    ∀ f ∈ s.entryPoints c.program, ∀ b, (c.program.func f).entryBlock? = some b →
      c'.program.Begins f b := by
  intro f hf b hb
  obtain ⟨hlive, hattributed⟩ := mem_entryPoints.mp hf
  have hclosed := (verify_ok.mp hv).closed hp hinvokes hlive (List.mem_of_head? hb)
  rw [run_eq] at h
  obtain ⟨_, c₀, hset, h⟩ := bind_ok h
  obtain rfl := modify_ok hset
  obtain ⟨stats₁, c₁, hprepare, h⟩ := bind_ok h
  obtain ⟨hp₁, he⟩ := prepare_entersAt (c := { c with addresses := setReuse s c.addresses })
    hp hdepth hprepare ⟨hattributed, hlive, hb, hclosed⟩
  exact applyRules_begins hp₁ he (hsheltered stats₁ c₁ hprepare) h

theorem run_keepsEntries_reading : ∃ stats c,
    run ({} : RuleSettings).rules {} { program := reading } = .ok stats c ∧
      (c.program.block ⟨0⟩).instrs = [⟨5⟩, ⟨6⟩, ⟨7⟩, ⟨8⟩, ⟨4⟩] ∧ c.program.Begins ⟨4⟩ ⟨0⟩ := by
  obtain ⟨stats, c, h, hblock⟩ := exists_ok
    (r := run ({} : RuleSettings).rules {} { program := reading })
    (P := fun c => (c.program.block ⟨0⟩).instrs = [⟨5⟩, ⟨6⟩, ⟨7⟩, ⟨8⟩, ⟨4⟩]) (by decide +kernel)
  exact ⟨stats, c, h, hblock, run_keepsEntries (by decide +kernel) (by rfl) directed_reading
    (fun _ => by decide) (fun _ _ _ => .inl ⟨rfl, rfl⟩) h ⟨4⟩ (by decide +kernel) ⟨0⟩ rfl⟩

/-! ## 4. Entry blocks that are lost -/

/-- An entry point that only returns. -/
def returning : Program where
  name := "returning"
  functions := #[⟨"Main", .void, [], false, none, none, [.pair "EntryPoint" none], [⟨0⟩], false⟩]
  blocks := #[⟨some "entry", some ⟨0⟩, [⟨0⟩], false⟩]
  instrs := #[⟨.ret, .void, [], none, some ⟨0⟩, false⟩]

/-- At limit 0 the entry block is deleted as dead; and a rule empties one that ends in an invoke. -/
theorem run_loses_entries :
    (returning.Sound ∧ returning.verify = .ok () ∧ ⟨0⟩ ∈ TransformSettings.entryPoints {} returning ∧
      (returning.func ⟨0⟩).entryBlock? = some ⟨0⟩ ∧ ∃ stats c,
        run ({} : RuleSettings).rules { maxRecursion := 0 } { program := returning } = .ok stats c ∧
          (c.program.func ⟨0⟩).erased = false ∧ (c.program.func ⟨0⟩).entryBlock? = none) ∧
    failing.Sound ∧ failing.verify = .ok () ∧ ⟨1⟩ ∈ TransformSettings.entryPoints {} failing ∧
      (failing.func ⟨1⟩).entryBlock? = some ⟨0⟩ ∧ ∃ stats c,
        run ({} : RuleSettings).rules
            { deleteDeadCode := false, cloneFunctions := false, executionPathOnly := false }
            { program := failing } = .ok stats c ∧
          (c.program.func ⟨1⟩).entryBlock? = some ⟨0⟩ ∧ (c.program.block ⟨0⟩).instrs = [] :=
  ⟨⟨by decide +kernel, by rfl, by decide +kernel, rfl, exists_ok (by decide +kernel)⟩,
    by decide +kernel, by rfl, by decide +kernel, rfl, exists_ok (by decide +kernel)⟩

end Transform

end QirProfile
