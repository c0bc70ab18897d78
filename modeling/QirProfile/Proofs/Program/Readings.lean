import QirProfile.Proofs.ControlFlow
import QirProfile.Proofs.Program.Linked

/-!
# What a walk reads of a function

A walk reads where control goes and what is called, and nothing else. `Leaves K p q` says that on
the way from `p` to `q` it reads the same in all functions outside `K`.

A change in one function could be read in another one only through an operand. `Enclosed` rules that
out: instructions refer to instructions and blocks of their own function. It says less than `Linked`,
so it also holds while calls that are to go still stand in their blocks.
-/

namespace QirProfile

open Value (substitute)

namespace Value

theorem substitute_instr (id : InstrId) (v : Value) (w : Value) :
    substitute (.instr id) v w = (if w = .instr id then v else w) ∨
      w.isConstant = true ∧ (substitute (.instr id) v w).isConstant = true := by
  cases w
  case array | struct | cast | gep =>
    refine .inr ⟨rfl, ?_⟩
    unfold substitute
    rw [if_neg nofun]
    rfl
  all_goals exact .inl (by unfold substitute; rfl)

theorem toBlock?_of_isConstant {v : Value} (h : v.isConstant = true) : v.toBlock? = none := by
  cases v <;> first | rfl | cases h

theorem toFunc?_of_isConstant {v : Value} (h : v.isConstant = true) : v.toFunc? = none := by
  cases v <;> first | rfl | cases h

end Value

/-! ## 1. Readings -/

namespace Instr

/-- Where control goes from an instruction if nothing is thrown. -/
def taken (i : Instr) : List BlockId :=
  match i.kind with
  | .br | .switch => i.successors
  | .invoke => i.invokeDestinations?.toList.map (·.1)
  | _ => []

/-- A walk reads the same in both instructions, and the second one refers to no further function. -/
structure SameReading (i j : Instr) : Prop where
  callee : j.calledFunction? = i.calledFunction?
  taken : j.taken = i.taken
  invoke : j.isInvoke = i.isInvoke
  funcs : ∀ k, .func k ∈ j.operands → .func k ∈ i.operands

variable {i j k : Instr}

theorem SameReading.refl (i : Instr) : SameReading i i := ⟨rfl, rfl, rfl, fun _ h => h⟩

theorem SameReading.trans (h₁ : SameReading i j) (h₂ : SameReading j k) : SameReading i k where
  callee := h₂.callee.trans h₁.callee
  taken := h₂.taken.trans h₁.taken
  invoke := h₂.invoke.trans h₁.invoke
  funcs f hf := h₁.funcs f (h₂.funcs f hf)

theorem SameReading.map {g : Value → Value} (hkind : j.kind = i.kind)
    (hoperands : j.operands = i.operands.map g) (hblock : ∀ v, (g v).toBlock? = v.toBlock?)
    (hfunc : ∀ v, (g v).toFunc? = v.toFunc?) : SameReading i j := by
  refine ⟨calledFunction?_map hkind hoperands hfunc, ?_, ?_, fun k hk => ?_⟩
  · unfold Instr.taken
    rw [successors_map hkind hoperands hblock, invokeDestinations?_map hkind hoperands hblock, hkind]
  · simp only [isInvoke, hkind]
  · rw [hoperands] at hk
    obtain ⟨v, hv, hvk⟩ := List.mem_map.mp hk
    have hto := hfunc v
    rw [hvk] at hto
    cases v <;> cases hto
    exact hv

theorem SameReading.of_eq (hkind : j.kind = i.kind) (hoperands : j.operands = i.operands) :
    SameReading i j :=
  .map (g := id) hkind (by rw [List.map_id, hoperands]) (fun _ => rfl) fun _ => rfl

theorem SameReading.substitute {id : InstrId} {v : Value} (hkind : j.kind = i.kind)
    (hoperands : j.operands = i.operands.map (Value.substitute (.instr id) v))
    (hid : .instr id ∉ i.operands ∨ v.toBlock? = none ∧ v.toFunc? = none) : SameReading i j := by
  -- on the operands that there are, the instruction may as well stay
  have hmap : (∀ w ∈ i.operands, w ≠ .instr id) → SameReading i j := by
    intro hne
    refine SameReading.map (g := fun w => if w = .instr id then w
      else Value.substitute (.instr id) v w) hkind ?_ (fun w => ?_) fun w => ?_
    · rw [hoperands]
      exact List.map_congr_left fun w hw => (if_neg (hne w hw)).symm
    all_goals
      split
      · rfl
      · rename_i hw
        rcases Value.substitute_instr id v w with h | ⟨hc, hc'⟩
        · rw [h, if_neg hw]
        · first
            | rw [Value.toBlock?_of_isConstant hc, Value.toBlock?_of_isConstant hc']
            | rw [Value.toFunc?_of_isConstant hc, Value.toFunc?_of_isConstant hc']
  rcases hid with hid | ⟨hblock, hfunc⟩
  · exact hmap fun w hw heq => hid (heq ▸ hw)
  · exact SameReading.map hkind hoperands (Value.toBlock?_substitute rfl hblock)
      (Value.toFunc?_substitute rfl hfunc)

theorem SameReading.forgetEntry (i : Instr) (source : BlockId) :
    SameReading i (Program.forgetEntry i source) := by
  unfold Program.forgetEntry
  split
  · rename_i blocks hkind
    refine ⟨?_, ?_, ?_, fun k hk => ?_⟩
    · simp [calledFunction?, callee?, isCall, isInvoke, hkind]
    · simp [Instr.taken, hkind]
    · simp [isInvoke, hkind]
    · obtain ⟨pair, hpair, heq⟩ := List.mem_map.mp hk
      obtain ⟨v, b⟩ := pair
      subst heq
      exact (List.of_mem_zip (List.mem_of_mem_filter hpair)).1
  · exact .refl i

theorem SameReading.marker {m m' : TailMarker} (hi : i.kind = .call m) :
    SameReading i { i with kind := .call m' } := by
  refine ⟨?_, ?_, ?_, fun _ hk => hk⟩
  · simp [calledFunction?, callee?, isCall, hi]
  · simp [Instr.taken, hi]
  · simp [isInvoke, hi]

theorem invokeDestinations?_renamed {g : Value → Value} (hkind : j.kind = i.kind)
    (hoperands : j.operands = i.operands.map g) (hg : ∀ b, ∃ c, g (.block b) = .block c)
    (h : i.invokeDestinations?.isSome = true) : j.invokeDestinations?.isSome = true := by
  unfold invokeDestinations? at h
  split at h
  · rename_i normal unwind callee hinvoke hdrop
    obtain ⟨c, hc⟩ := hg normal
    obtain ⟨d, hd⟩ := hg unwind
    rw [invokeDestinations?_eq (hkind.trans hinvoke), hoperands, List.length_map, ← List.map_drop,
      hdrop]
    simp only [List.map_cons, List.map_nil, hc, hd, Value.toBlock?, Option.bind_some,
      Option.map_some, Option.isSome_some]
  · cases h

theorem mem_of_taken {c : BlockId} (h : c ∈ i.taken) : .block c ∈ i.operands := by
  unfold taken at h
  split at h
  · exact mem_of_successors h
  · exact mem_of_successors h
  · obtain ⟨⟨normal, unwind⟩, hdest, rfl⟩ := List.mem_map.mp h
    exact Replacing.mem_of_invokeDestinations? (Option.mem_toList.mp hdest)
  · cases h

end Instr

namespace Program

variable {K : FuncId → Prop} {p q r : Program} {f c g : FuncId}

/-! ## 2. Operands at home -/

/-- What an operand in a function may be: an instruction that stands nowhere else, a block of the
    function, or a function of the program. -/
def AtHome (p : Program) (f : FuncId) : Value → Prop
  | .instr i => i.index < p.instrs.size ∧ ∀ g, p.functionOf? i = some g → g = f
  | .block b => (p.block b).parent = some f
  | .func k => k.index < p.functions.size
  | _ => True

theorem atHome_of_isConstant {v : Value} (h : v.isConstant = true) : AtHome p f v := by
  cases v <;> trivial

theorem AtHome.substitute {id : InstrId} {v w : Value} (hw : AtHome p f w)
    (hv : w = .instr id → AtHome p f v) : AtHome p f (substitute (.instr id) v w) := by
  rcases Value.substitute_instr id v w with h | ⟨-, h⟩
  · rw [h]
    split
    · exact hv ‹_›
    · exact hw
  · exact atHome_of_isConstant h

theorem Spares.functionOf_back (h : Spares K p q) (hp : p.Sound) (hq : q.Sound) {i : InstrId}
    (hi : i.index < p.instrs.size) (hf : q.functionOf? i = some f) : p.functionOf? i = some f := by
  obtain ⟨b, hb, hparent⟩ := Option.bind_eq_some_iff.mp hf
  have hb' := (h.parent i hi (hq.live_of_functionOf hf)).symm.trans hb
  have hlive := hq.block_live_of_listed (hq.mem_blocks.mpr hparent)
  refine Option.bind_eq_some_iff.mpr ⟨b, hb', ?_⟩
  rw [← h.blockParent b (block_lt_of_mem (hp.mem_instrs.mpr hb')) hlive]
  exact hparent

theorem AtHome.transport {v : Value} (h : AtHome p f v) (hs : Spares K p q) (hp : p.Sound)
    (hq : q.Sound) (hblock : ∀ b, (p.block b).parent = some f → (q.block b).parent = some f) :
    AtHome q f v := by
  cases v with
  | instr i =>
    exact ⟨Nat.lt_of_lt_of_le h.1 hs.buries.instrs, fun g hg =>
      h.2 g (hs.functionOf_back hp hq h.1 hg)⟩
  | block b => exact hblock b h
  | func k => exact Nat.lt_of_lt_of_le h hs.buries.functions
  | _ => trivial

/-- The operands of instructions are at home. -/
structure Enclosed (p : Program) : Prop where
  sound : p.Sound
  operands : ∀ f i, (p.func f).erased = false → p.functionOf? i = some f →
    ∀ v ∈ (p.instr i).operands, AtHome p f v

theorem Enclosed.rework (h : p.Enclosed) (hs : p.SameFrame q) (hfunc : ∀ f, q.func f = p.func f)
    (hoperands : ∀ f i, (p.func f).erased = false → p.functionOf? i = some f →
      ∀ v ∈ (q.instr i).operands, AtHome p f v) : q.Enclosed := by
  have hplaces := hs.places hfunc
  have hhome : ∀ f v, AtHome p f v → AtHome q f v := by
    intro f v hv
    cases v with
    | instr i => exact ⟨hs.instrs ▸ hv.1, fun g hg => hv.2 g ((hplaces.functionOf i).symm.trans hg)⟩
    | block b => exact (hplaces.block b).trans hv
    | func k => exact Nat.lt_of_lt_of_eq hv hs.functions.symm
    | _ => trivial
  refine ⟨(hs.evolves h.sound).1, fun f i hf hi v hv => ?_⟩
  rw [hfunc] at hf
  rw [hplaces.functionOf] at hi
  exact hhome f v (hoperands f i hf hi v hv)

theorem Enclosed.replaceUses {id : InstrId} {v : Value} (h : p.Enclosed)
    (hid : p.functionOf? id = some c) (hv : (p.func c).erased = false → AtHome p c v) :
    (p.replaceUses (.instr id) v).Enclosed := by
  refine h.rework (sameFrame_replaceUses p _ v) (fun _ => rfl) fun f i hf hi w hw => ?_
  have hold := h.operands f i hf hi
  rw [instr_replaceUses] at hw
  split at hw
  · obtain ⟨u, hu, rfl⟩ := List.mem_map.mp hw
    refine (hold u hu).substitute fun heq => ?_
    subst heq
    obtain rfl := (hold _ hu).2 c hid
    exact hv hf
  · exact hold w hw

theorem Enclosed.updateInstr {id : InstrId} {φ : Instr → Instr} (h : p.Enclosed)
    (hφ : ∀ i, (φ i).parent = i.parent ∧ (φ i).erased = i.erased)
    (hsub : (φ (p.instr id)).operands ⊆ (p.instr id).operands) :
    (p.updateInstr id φ).Enclosed := by
  refine h.rework (sameFrame_updateInstr hφ p id) (fun _ => rfl) fun f i hf hi v hv => ?_
  rw [instr_updateInstr] at hv
  split at hv
  · rename_i hi'
    obtain rfl := hi'.1
    exact h.operands f id hf hi v (hsub hv)
  · exact h.operands f i hf hi v hv

theorem Enclosed.setInstrName (h : p.Enclosed) (id : InstrId) (name : Option String) :
    (p.setInstrName id name).Enclosed :=
  h.updateInstr (fun _ => ⟨rfl, rfl⟩) fun _ hv => hv

theorem Enclosed.takeName (h : p.Enclosed) (source target : InstrId) :
    (p.takeName source target).Enclosed :=
  (h.setInstrName source none).setInstrName target _

theorem Enclosed.setKind {id : InstrId} {marker : TailMarker} (h : p.Enclosed)
    (hset : p.setKind id (.call marker) = .ok q) : q.Enclosed := by
  obtain ⟨_, -, hset⟩ := except_bind_ok.mp hset
  cases hset
  exact h.updateInstr (fun _ => ⟨rfl, rfl⟩) fun _ hv => hv

theorem Enclosed.forgetEntry (h : p.Enclosed) (id : InstrId) (source : BlockId) :
    (p.updateInstr id (forgetEntry · source)).Enclosed :=
  h.updateInstr (φ := (Program.forgetEntry · source))
    (fun i => ⟨(forgetEntry_same i source).1, (forgetEntry_same i source).2.1⟩)
    (forgetEntry_same (p.instr id) source).2.2.2

theorem Inserted.enclosed {d : Edit.Draft} {anchor new : InstrId} {b : BlockId}
    {front back : List InstrId} (hins : Inserted p q d anchor new b front back) (h : p.Enclosed)
    (hb : (p.block b).parent = some c)
    (hoperands : (p.func c).erased = false → ∀ v ∈ d.operands, AtHome p c v) : q.Enclosed := by
  have hq := (hins.evolves h.sound).1
  have hhome : ∀ f v, AtHome p f v → AtHome q f v := fun f v hv =>
    hv.transport (hins.spares (K := fun _ => False) h.sound) h.sound hq
      fun b hb => (hins.parent b).trans hb
  obtain ⟨name, hmade⟩ := hins.made
  refine ⟨hq, fun f i hf hi v hv => ?_⟩
  rw [hins.func] at hf
  by_cases hnew : i = new
  · subst hnew
    obtain rfl := Option.some.inj (hi.symm.trans (hins.functionOf_new hb))
    rw [hmade] at hv
    exact hhome f v (hoperands hf v hv)
  · rw [hins.functionOf hnew] at hi
    rw [hins.instr i hnew] at hv
    exact hhome f v (h.operands f i hf hi v hv)

theorem Enclosed.lose (h : p.Enclosed) (hq : q.Sound) (hs : Spares K p q)
    (hlive : ∀ f, (q.func f).erased = false → (p.func f).erased = false)
    (hblock : ∀ f b, (q.func f).erased = false → (p.block b).parent = some f →
      (q.block b).parent = some f)
    (hleft : ∀ f i, q.functionOf? i = some f → p.functionOf? i = some f ∧ q.instr i = p.instr i) :
    q.Enclosed := by
  refine ⟨hq, fun f i hf hi v hv => ?_⟩
  obtain ⟨hi', hsame⟩ := hleft f i hi
  rw [hsame] at hv
  exact (h.operands f i (hlive f hf) hi' v hv).transport hs h.sound hq fun b => hblock f b hf

theorem Enclosed.dropInstr {id : InstrId} (h : p.Enclosed) (hlive : (p.instr id).erased = false) :
    (p.dropInstr id).Enclosed := by
  have hlt := instr_lt_of_live hlive
  refine h.lose (evolves_dropInstr hlive h.sound).1
    (spares_dropInstr (K := fun _ => True) h.sound hlive fun _ _ => trivial)
    (fun f hf => by rwa [func_dropInstr] at hf) (fun f b _ hb => ?_) fun f i hi => ?_
  · rw [block_dropInstr]
    split
    · exact hb
    · exact hb
  · have hne : id ≠ i := by
      rintro rfl
      rw [not_functionOf_dropInstr hlt] at hi
      cases hi
    rw [functionOf_dropInstr hne] at hi
    exact ⟨hi, instr_dropInstr_ne hne⟩

theorem Enclosed.dropFunction (h : p.Enclosed) (hlive : (p.func g).erased = false) :
    (p.dropFunction g).Enclosed := by
  have hne : ∀ {f}, ((p.dropFunction g).func f).erased = false → g ≠ f := by
    rintro f hf rfl
    rw [func_dropFunction_self hlive] at hf
    cases hf
  refine h.lose (sound_dropFunction h.sound).1 (spares_dropFunction (K := (· = g)) h.sound rfl)
    (fun f hf => ?_) (fun f b hf hb => ?_) fun f i hi => left_dropFunction h.sound hi
  · rwa [func_dropFunction h.sound (hne hf)] at hf
  · rwa [block_dropFunction h.sound]
    rw [hb]
    exact fun heq => hne hf (Option.some.inj heq).symm

section

variable {constants : List (Nat × Value)}
  (hconstants : ∀ c ∈ constants, ∃ bits value, c.2 = .int bits value)

include hconstants

theorem value_copyRenaming_arg (k : FuncId) (m : Nat) :
    (∃ bits value, (p.copyRenaming g constants).value (.arg k m) = .int bits value) ∨
      ∃ k' m', (p.copyRenaming g constants).value (.arg k m) = .arg k' m' := by
  change (∃ bits value, (if k = g then (p.copyRenaming g constants).params.getD m (.arg k m)
      else .arg k m) = .int bits value) ∨
    ∃ k' m', (if k = g then (p.copyRenaming g constants).params.getD m (.arg k m)
      else .arg k m) = .arg k' m'
  split
  · rw [List.getD_eq_getElem?_getD]
    cases hm : (p.copyRenaming g constants).params[m]? with
    | none => exact .inr ⟨k, m, rfl⟩
    | some w =>
      rcases mem_paramValues (List.mem_of_getElem? hm) with ⟨c, hc, rfl⟩ | ⟨j, rfl, -⟩
      · exact .inl (hconstants c hc)
      · exact .inr ⟨_, j, rfl⟩
  · exact .inr ⟨k, m, rfl⟩

theorem func_of_value_copyRenaming {v : Value} {k : FuncId}
    (h : (p.copyRenaming g constants).value v = .func k) : v = .func k := by
  cases v with
  | arg f m =>
    rcases value_copyRenaming_arg (p := p) (g := g) hconstants f m with ⟨_, _, harg⟩ | ⟨_, _, harg⟩
    all_goals
      rw [harg] at h
      cases h
  | instr i =>
    rw [Renaming.value_instr] at h
    cases h
  | block b => cases h
  | _ => exact h

theorem AtHome.copy {v : Value} (hp : p.Sound) (h : AtHome p g v) :
    AtHome (p.withCopy g constants) ⟨p.functions.size⟩ ((p.copyRenaming g constants).value v) := by
  have hq := (evolves_withCopy p g constants hp).1
  have hs : Spares (fun _ => False) p (p.withCopy g constants) := spares_withCopy hp
  cases v with
  | instr i =>
    rw [Renaming.value_instr]
    by_cases hi : p.functionOf? i = some g
    · have hnew : (p.withCopy g constants).functionOf? ((p.copyRenaming g constants).instrId i) =
          some ⟨p.functions.size⟩ := functionOf_withCopy_new hp hi
      exact ⟨instr_lt_of_live (hq.live_of_functionOf hnew), fun k hk =>
        Option.some.inj (hk.symm.trans hnew)⟩
    · -- an instruction that stands nowhere keeps its name
      have hnone : (p.copyRenaming g constants).instrs.idxOf? i = none :=
        List.idxOf?_eq_none_iff.mpr fun hmem => hi (hp.mem_instrsOf.mp hmem)
      have hsame : (p.copyRenaming g constants).instrId i = i := by
        unfold Renaming.instrId
        rw [hnone]
      rw [hsame]
      refine ⟨Nat.lt_of_lt_of_le h.1 hs.buries.instrs, fun k hk => absurd ?_ hi⟩
      have hk' := hs.functionOf_back hp hq h.1 hk
      rwa [h.2 k hk'] at hk'
  | block b => exact parent_withCopy_new hp h
  | func k => exact Nat.lt_of_lt_of_le h hs.buries.functions
  | arg k m =>
    rcases value_copyRenaming_arg (p := p) (g := g) hconstants k m with ⟨_, _, harg⟩ | ⟨_, _, harg⟩
    all_goals
      rw [harg]
      trivial
  | _ => trivial

end

theorem stands_withCopy {constants : List (Nat × Value)} {i : InstrId} (hp : p.Sound)
    (hi : (p.withCopy g constants).functionOf? i = some f) :
    p.functionOf? i = some f ∧ (p.withCopy g constants).func f = p.func f ∧
      (p.withCopy g constants).instr i = p.instr i ∨
    f = ⟨p.functions.size⟩ ∧ ∃ j, p.functionOf? j = some g ∧
      (p.withCopy g constants).instr i = (p.copyRenaming g constants).instr (p.instr j) := by
  have hq := (evolves_withCopy p g constants hp).1
  have hs : Spares (fun _ => False) p (p.withCopy g constants) := spares_withCopy hp
  rcases instr_of_withCopy hp g constants i with hlt | ⟨j, hj, rfl⟩ | hnone
  · have hi' := hs.functionOf_back hp hq hlt hi
    obtain ⟨b, -, hb⟩ := Option.bind_eq_some_iff.mp hi'
    exact .inl ⟨hi', func_withCopy_old (func_lt_of_mem (hp.mem_blocks.mpr hb)),
      instr_withCopy_old hlt⟩
  · have hj' := hp.mem_instrsOf.mp hj
    exact .inr ⟨Option.some.inj (hi.symm.trans (functionOf_withCopy_new hp hj')), j, hj',
      instr_withCopy_new hp g constants hj⟩
  · have hlive := hq.live_of_functionOf hi
    rw [hnone] at hlive
    cases hlive

theorem Enclosed.withCopy {constants : List (Nat × Value)} (h : p.Enclosed)
    (hg : (p.func g).erased = false)
    (hconstants : ∀ c ∈ constants, ∃ bits value, c.2 = .int bits value) :
    (p.withCopy g constants).Enclosed := by
  have hp := h.sound
  have hq := (evolves_withCopy p g constants hp).1
  have hs : Spares (fun _ => False) p (p.withCopy g constants) := spares_withCopy hp
  refine ⟨hq, fun f i hf hi v hv => ?_⟩
  rcases stands_withCopy hp hi with ⟨hi', hfunc, hsame⟩ | ⟨rfl, j, hj, hcopy⟩
  · rw [hsame] at hv
    rw [hfunc] at hf
    exact (h.operands f i hf hi' v hv).transport hs hp hq fun b hb => parent_withCopy_old hb
  · rw [hcopy] at hv
    obtain ⟨w, hw, rfl⟩ := List.mem_map.mp hv
    exact AtHome.copy hconstants hp (h.operands g j hg hj w hw)

theorem Verified.enclosed (hp : p.Sound) (hv : p.Verified) : p.Enclosed := by
  refine ⟨hp, fun f i hf hi v hmem => ?_⟩
  have hrefers := (hv.linked hp).operands f i hf hi v hmem
  cases v with
  | instr j =>
    have hj : p.functionOf? j = some f := hrefers.resolve_right id
    exact ⟨instr_lt_of_live (hp.live_of_functionOf hj), fun g hg =>
      Option.some.inj (hg.symm.trans hj)⟩
  | block b => exact hrefers
  | func k => exact func_lt_of_live hrefers
  | _ => trivial

/-! ## 3. Functions that read the same -/

/-- A walk reads the same in all functions outside `K`. -/
structure Leaves (K : FuncId → Prop) (p q : Program) : Prop where
  spares : Spares K p q
  functions : q.functions.size = p.functions.size
  func : ∀ f, ¬ K f → q.func f = p.func f
  block : ∀ f b, ¬ K f → (p.block b).parent = some f → (q.block b).instrs = (p.block b).instrs
  reads : ∀ f i, ¬ K f → (p.func f).erased = false → p.functionOf? i = some f →
    (p.instr i).SameReading (q.instr i)
  bodies : ∀ f, (p.func f).blocks = [] → (q.func f).blocks = []

theorem Leaves.refl (hp : p.Sound) : Leaves K p p :=
  ⟨.refl hp, rfl, fun _ _ => rfl, fun _ _ _ _ => rfl, fun _ _ _ _ _ => .refl _, fun _ h => h⟩

theorem Leaves.trans (h₁ : Leaves K p q) (h₂ : Leaves K q r) : Leaves K p r where
  spares := h₁.spares.trans h₂.spares
  functions := h₂.functions.trans h₁.functions
  func f hf := (h₂.func f hf).trans (h₁.func f hf)
  block f b hf hb := (h₂.block f b hf (h₁.spares.blockOf hf hb)).trans (h₁.block f b hf hb)
  reads f i hf hlive hi := (h₁.reads f i hf hlive hi).trans
    (h₂.reads f i hf (by rwa [h₁.func f hf]) (h₁.spares.functionOf hf hi))
  bodies f hf := h₂.bodies f (h₁.bodies f hf)

theorem Leaves.functionOf_back (h : Leaves K p q) (hp : p.Sound) (hq : q.Sound) (hf : ¬ K f)
    {i : InstrId} (hi : q.functionOf? i = some f) : p.functionOf? i = some f := by
  obtain ⟨b, hb, hparent⟩ := Option.bind_eq_some_iff.mp hi
  have hmem := hq.mem_blocks.mpr hparent
  rw [h.func f hf] at hmem
  have hparent' := hp.mem_blocks.mp hmem
  refine Option.bind_eq_some_iff.mpr ⟨b, hp.mem_instrs.mp ?_, hparent'⟩
  rw [← h.block f b hf hparent']
  exact hq.mem_instrs.mpr hb

theorem leaves_rework (hs : p.SameFrame q) (hfunc : ∀ f, q.func f = p.func f)
    (hspares : Spares K p q) (hreads : ∀ f i, ¬ K f → (p.func f).erased = false →
      p.functionOf? i = some f → (p.instr i).SameReading (q.instr i)) : Leaves K p q where
  spares := hspares
  functions := hs.functions
  func f _ := hfunc f
  block _ b _ _ := (hs.block b).2.1
  reads := hreads
  bodies f hf := by rw [hfunc]; exact hf

theorem leaves_replaceUses {id : InstrId} {v : Value} (h : p.Enclosed)
    (hid : (∀ f, ¬ K f → p.functionOf? id ≠ some f) ∧ (∃ g, p.functionOf? id = some g) ∨
      v.toBlock? = none ∧ v.toFunc? = none) : Leaves K p (p.replaceUses (.instr id) v) := by
  refine leaves_rework (sameFrame_replaceUses p _ v) (fun _ => rfl)
    (spares_replaceUses h.sound id v) fun f i hf hlive hi => ?_
  rw [instr_replaceUses]
  split
  · refine Instr.SameReading.substitute rfl rfl ?_
    refine hid.imp_left fun ⟨hout, g, hg⟩ hmem => hout f hf ?_
    rwa [(h.operands f i hlive hi _ hmem).2 g hg] at hg
  · exact .refl _

theorem leaves_takeName (hp : p.Sound) (source target : InstrId) :
    Leaves K p (p.takeName source target) := by
  refine leaves_rework (sameFrame_takeName p source target) (fun _ => rfl)
    (spares_takeName hp source target) fun f i _ _ _ => ?_
  obtain ⟨n, hn⟩ := instr_takeName p source target i
  rw [hn]
  exact .of_eq rfl rfl

theorem leaves_setKind {id : InstrId} {marker : TailMarker} (hp : p.Sound)
    (hcall : ∃ m, (p.instr id).kind = .call m) (hset : p.setKind id (.call marker) = .ok q) :
    Leaves K p q := by
  have hspares : Spares K p q := spares_setKind hp hcall hset
  obtain ⟨_, -, hset⟩ := except_bind_ok.mp hset
  cases hset
  refine leaves_rework (sameFrame_updateInstr (g := ({ · with kind := .call marker }))
    (fun _ => ⟨rfl, rfl⟩) p id) (fun _ => rfl) hspares fun f i _ _ _ => ?_
  rw [instr_updateInstr]
  split
  · rename_i hi
    obtain ⟨m, hm⟩ := hcall
    rw [hi.1] at hm
    exact .marker hm
  · exact .refl _

theorem leaves_forgetEntry (hp : p.Sound) (id : InstrId) (source : BlockId) :
    Leaves K p (p.updateInstr id (forgetEntry · source)) := by
  have hsame : ∀ i, (p.updateInstr id (forgetEntry · source)).instr i = p.instr i ∨
      (p.updateInstr id (forgetEntry · source)).instr i = forgetEntry (p.instr i) source := by
    intro i
    rw [instr_updateInstr]
    split
    · exact .inr rfl
    · exact .inl rfl
  have hreads : ∀ i, (p.instr i).SameReading
      ((p.updateInstr id (forgetEntry · source)).instr i) := by
    intro i
    rcases hsame i with h | h
    · rw [h]
      exact .refl _
    · rw [h]
      exact .forgetEntry _ source
  have hs := sameFrame_updateInstr (g := (forgetEntry · source))
    (fun i => ⟨(forgetEntry_same i source).1, (forgetEntry_same i source).2.1⟩) p id
  refine leaves_rework hs (fun _ => rfl) (hs.spares hp (fun i => ?_) fun i k hk => ?_)
    fun f i _ _ _ => hreads i
  · rcases hsame i with h | h
    · rw [h]
    · rw [h, isTerminator_forgetEntry]
  · rw [(hreads i).callee]
    exact hk

theorem Inserted.leaves {d : Edit.Draft} {anchor new : InstrId} {b : BlockId}
    {front back : List InstrId} (hins : Inserted p q d anchor new b front back) (hp : p.Sound)
    (hb : (p.block b).parent = some c) : Leaves (· = c) p q where
  spares := hins.spares hp
  functions := hins.functions
  func f _ := hins.func f
  block f a hf ha := by
    refine hins.others a ?_
    rintro rfl
    exact hf (Option.some.inj (ha.symm.trans hb))
  reads f i _ _ hi := by
    rw [hins.instr i (hins.ne_new (instr_lt_of_live (hp.live_of_functionOf hi)))]
    exact .refl _
  bodies f hf := by rw [hins.func]; exact hf

theorem leaves_dropInstr {id : InstrId} (hp : p.Sound) (hid : p.functionOf? id = some c) :
    Leaves (· = c) p (p.dropInstr id) where
  spares := spares_dropInstr hp (hp.live_of_functionOf hid) fun f hf =>
    Option.some.inj (hf.symm.trans hid)
  functions := (sizes_dropInstr p id).1
  func f _ := func_dropInstr p id f
  block f b hf hb := by
    obtain ⟨a, ha, hparent⟩ := Option.bind_eq_some_iff.mp hid
    rw [block_dropInstr, if_neg]
    rw [ha, Option.some_inj]
    rintro rfl
    exact hf (Option.some.inj (hb.symm.trans hparent))
  reads f i hf _ hi := by
    rw [instr_dropInstr_ne]
    · exact .refl _
    · rintro rfl
      exact hf (Option.some.inj (hi.symm.trans hid))
  bodies f hf := by rw [func_dropInstr]; exact hf

/-- Nothing is read otherwise when a function goes, but in the function. -/
theorem leaves_dropFunction (hp : p.Sound) : Leaves (· = g) p (p.dropFunction g) where
  spares := spares_dropFunction hp rfl
  functions := functions_dropFunction p g
  func f hf := func_dropFunction hp fun heq => hf heq.symm
  block f b hf hb := by
    rw [block_dropFunction hp]
    rw [hb]
    exact fun heq => hf (Option.some.inj heq)
  reads f i hf _ hi := by
    rw [instr_dropFunction hp]
    · exact .refl _
    · rw [hi]
      exact fun heq => hf (Option.some.inj heq)
  bodies f hf := by
    by_cases heq : g = f
    · rw [← heq]
      exact blocks_dropFunction hp
    · rw [func_dropFunction hp heq]
      exact hf

end Program

end QirProfile
