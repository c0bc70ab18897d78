import QirProfile.Proofs.Program.Sparing

/-!
# Programs in which nothing refers to what is gone

`Verified` asks two things of a program: that blocks are in order, and that what instructions refer to
is there. `Linked` is the second one alone, so that it can be carried through changes after which a
block is out of order for a time. Detached instructions can be let in as guests of a function, as long
as they are put there in the end.
-/

namespace QirProfile

open Value (mentions mentionsAny substitute substituteAll)

namespace Value

/-! ## 1. Values that are replaced -/

mutual

theorem not_mentions_substitute {old new : Value} (hold : old.isConstant = false)
    (hnew : mentions old new = false) : (v : Value) → mentions old (substitute old new v) = false
  | instr _ | arg _ _ | block _ | func _ | global _ | int _ _ | float _ _ | null _ | undef _
  | zero _ | bytes _ => by
    unfold substitute
    split
    · exact hnew
    · rename_i hne
      simpa [mentions] using hne
  | array ty vs => by
    unfold substitute
    split
    · exact hnew
    · simp only [mentions, Bool.or_eq_false_iff, beq_eq_false_iff_ne, ne_eq]
      refine ⟨fun heq => ?_, not_mentionsAny_substituteAll hold hnew vs⟩
      rw [← heq] at hold
      cases hold
  | struct ty vs => by
    unfold substitute
    split
    · exact hnew
    · simp only [mentions, Bool.or_eq_false_iff, beq_eq_false_iff_ne, ne_eq]
      refine ⟨fun heq => ?_, not_mentionsAny_substituteAll hold hnew vs⟩
      rw [← heq] at hold
      cases hold
  | cast op v ty => by
    unfold substitute
    split
    · exact hnew
    · simp only [mentions, Bool.or_eq_false_iff, beq_eq_false_iff_ne, ne_eq]
      refine ⟨fun heq => ?_, not_mentions_substitute hold hnew v⟩
      rw [← heq] at hold
      cases hold
  | gep inbounds source base vs ty => by
    unfold substitute
    split
    · exact hnew
    · simp only [mentions, Bool.or_eq_false_iff, beq_eq_false_iff_ne, ne_eq]
      refine ⟨⟨fun heq => ?_, not_mentions_substitute hold hnew base⟩,
        not_mentionsAny_substituteAll hold hnew vs⟩
      rw [← heq] at hold
      cases hold

theorem not_mentionsAny_substituteAll {old new : Value} (hold : old.isConstant = false)
    (hnew : mentions old new = false) :
    (vs : List Value) → mentionsAny old (substituteAll old new vs) = false
  | [] => rfl
  | v :: vs => by
    simp only [substituteAll, mentionsAny, Bool.or_eq_false_iff]
    exact ⟨not_mentions_substitute hold hnew v, not_mentionsAny_substituteAll hold hnew vs⟩

end

theorem toBlock?_substitute {old new : Value} (hold : old.toBlock? = none)
    (hnew : new.toBlock? = none) (v : Value) : (substitute old new v).toBlock? = v.toBlock? := by
  cases v <;> unfold substitute <;> split <;> rename_i h
  all_goals first
    | rfl
    | (rw [hnew, h, hold])

theorem toFunc?_substitute {old new : Value} (hold : old.toFunc? = none)
    (hnew : new.toFunc? = none) (v : Value) : (substitute old new v).toFunc? = v.toFunc? := by
  cases v <;> unfold substitute <;> split <;> rename_i h
  all_goals first
    | rfl
    | (rw [hnew, h, hold])

end Value

namespace Instr

theorem invokeDestinations?_eq {i : Instr} (h : i.kind = .invoke) :
    i.invokeDestinations? = match i.operands.drop (i.operands.length - 3) with
      | [v, w, _] => v.toBlock?.bind fun normal => w.toBlock?.map (normal, ·)
      | _ => none := by
  unfold invokeDestinations?
  rw [h]
  rcases i.operands.drop (i.operands.length - 3) with _ | ⟨v, _ | ⟨w, _ | ⟨x, _ | ⟨y, rest⟩⟩⟩⟩
  · rfl
  · cases v <;> rfl
  all_goals cases v <;> cases w <;> rfl

section

variable {i j : Instr} {g : Value → Value} (hkind : j.kind = i.kind)
  (hoperands : j.operands = i.operands.map g)

include hkind hoperands

theorem invokeDestinations?_map (hg : ∀ v, (g v).toBlock? = v.toBlock?) :
    j.invokeDestinations? = i.invokeDestinations? := by
  by_cases hi : i.kind = .invoke
  · rw [invokeDestinations?_eq hi, invokeDestinations?_eq (hkind.trans hi), hoperands,
      List.length_map, ← List.map_drop]
    rcases i.operands.drop (i.operands.length - 3) with _ | ⟨v, _ | ⟨w, _ | ⟨x, _ | ⟨y, rest⟩⟩⟩⟩
    case cons.cons.cons.nil => simp only [List.map_cons, List.map_nil, hg]
    all_goals rfl
  · have hnone : ∀ k : Instr, k.kind ≠ .invoke → k.invokeDestinations? = none := by
      intro k hk
      unfold invokeDestinations?
      split
      · rename_i hinvoke _
        exact absurd hinvoke hk
      · rfl
    rw [hnone i hi, hnone j (hkind ▸ hi)]

theorem successors_map (hg : ∀ v, (g v).toBlock? = v.toBlock?) : j.successors = i.successors := by
  have hsame := invokeDestinations?_map hkind hoperands hg
  unfold successors
  rw [hkind]
  cases i.kind with
  | br | switch =>
    simp only [hoperands, List.filterMap_map]
    exact List.filterMap_congr fun v _ => hg v
  | invoke => simp only [hsame]
  | _ => rfl

theorem calledFunction?_map (hg : ∀ v, (g v).toFunc? = v.toFunc?) :
    j.calledFunction? = i.calledFunction? := by
  have hcalls : (j.isCall || j.isInvoke) = (i.isCall || i.isInvoke) := by
    unfold isCall isInvoke
    rw [hkind]
  unfold calledFunction? callee?
  rw [hcalls, hoperands, List.getLast?_map]
  split
  · cases i.operands.getLast? with
    | none => rfl
    | some v => exact hg v
  · rfl

end

end Instr

namespace Program

variable {G G' : InstrId → FuncId → Prop} {p q : Program} {f g : FuncId} {id : InstrId}

theorem not_uses_replaceUses {old new : Value} (hold : old.isConstant = false)
    (hnew : mentions old new = false) {i : InstrId} (hlive : (p.instr i).erased = false) :
    ((p.replaceUses old new).instr i).uses old = false := by
  rw [instr_replaceUses, hlive]
  split
  · refine Bool.eq_false_iff.mpr fun huses => ?_
    obtain ⟨w, hw, hmentions⟩ := Instr.uses_iff.mp huses
    obtain ⟨v, -, rfl⟩ := List.mem_map.mp hw
    rw [Value.not_mentions_substitute hold hnew] at hmentions
    cases hmentions
  · rename_i hnot
    simpa using hnot

theorem not_global_uses_replaceUses {old new : Value} (hold : old.isConstant = false)
    (hnew : mentions old new = false) (g : GlobalId) :
    ((p.replaceUses old new).global g).uses old = false := by
  rw [global_replaceUses]
  split
  · unfold Global.uses
    cases (p.global g).initializer with
    | none => rfl
    | some v => exact Value.not_mentions_substitute hold hnew v
  · rename_i hnot
    simpa using hnot

/-! ## 2. What operands refer to -/

/-- What may stand as an operand in a function. Inside a constant only the converted value and the
    base of an address count. Detached instructions of `G` count as guests of a function. -/
def Refers (G : InstrId → FuncId → Prop) (p : Program) (f : FuncId) : Value → Prop
  | .instr i => p.functionOf? i = some f ∨ G i f
  | .block b => (p.block b).parent = some f
  | .arg owner _ => owner = f
  | .func k => (p.func k).erased = false
  | .cast _ v _ => Refers G p f v
  | .gep _ _ base _ _ => Refers G p f base
  | _ => True

/-- No instruction is a guest. -/
def noGuests : InstrId → FuncId → Prop := fun _ _ => False

theorem operandProblem?_eq_none (hp : p.Sound) :
    (v : Value) → (p.operandProblem? f v = none ↔ Refers noGuests p f v)
  | .instr i => by
    unfold operandProblem? Refers
    constructor
    · intro h
      split at h
      · cases h
      · split at h
        · cases h
        · rename_i hin
          exact .inl (not_not.mp hin)
    · rintro (h | h)
      · rw [hp.live_of_functionOf h, if_neg Bool.false_ne_true, if_neg (not_not.mpr h)]
      · cases h
  | .block b => by
    constructor
    · exact operandProblem?_block
    · intro h
      unfold Refers at h
      unfold operandProblem?
      rw [hp.block_live_of_listed (hp.mem_blocks.mpr h), if_neg Bool.false_ne_true,
        if_neg (not_not.mpr h)]
  | .arg owner k => by
    unfold operandProblem? Refers
    simp
  | .func k => by
    unfold operandProblem? Refers
    simp
  | .cast _ v _ => by
    unfold operandProblem? Refers
    exact operandProblem?_eq_none hp v
  | .gep _ _ base _ _ => by
    unfold operandProblem? Refers
    exact operandProblem?_eq_none hp base
  | .global _ | .int _ _ | .float _ _ | .null _ | .undef _ | .zero _ | .bytes _ | .array _ _
  | .struct _ _ => by
    unfold operandProblem? Refers
    exact iff_of_true rfl trivial

theorem Refers.substitute {old new : Value} (hnew : Refers G p f old → Refers G p f new) :
    (v : Value) → Refers G p f v → Refers G p f (substitute old new v)
  | .instr _, h | .arg _ _, h | .block _, h | .func _, h | .global _, h | .int _ _, h
  | .float _ _, h | .null _, h | .undef _, h | .zero _, h | .bytes _, h => by
    unfold Value.substitute
    split
    · rename_i heq
      exact hnew (heq ▸ h)
    · exact h
  | .array _ _, h | .struct _ _, h => by
    unfold Value.substitute
    split
    · rename_i heq
      exact hnew (heq ▸ h)
    · exact trivial
  | .cast _ v _, h => by
    unfold Value.substitute
    split
    · rename_i heq
      exact hnew (heq ▸ h)
    · exact Refers.substitute hnew v h
  | .gep _ _ base _ _, h => by
    unfold Value.substitute
    split
    · rename_i heq
      exact hnew (heq ▸ h)
    · exact Refers.substitute hnew base h

theorem Refers.transport : (v : Value) → Refers G p f v →
    (∀ i, mentions (.instr i) v = true → p.functionOf? i = some f ∨ G i f →
      q.functionOf? i = some f ∨ G' i f) →
    (∀ b, mentions (.block b) v = true → (p.block b).parent = some f →
      (q.block b).parent = some f) →
    (∀ k, mentions (.func k) v = true → (p.func k).erased = false → (q.func k).erased = false) →
    Refers G' q f v
  | .instr i, h, hinstr, _, _ => hinstr i (Value.mentions_self _) h
  | .block b, h, _, hblock, _ => hblock b (Value.mentions_self _) h
  | .func k, h, _, _, hfunc => hfunc k (Value.mentions_self _) h
  | .arg _ _, h, _, _, _ => h
  | .cast op v ty, h, hinstr, hblock, hfunc => by
    have hinside : ∀ w, mentions w v = true → mentions w (.cast op v ty) = true := by
      intro w hw
      simp [mentions, hw]
    exact Refers.transport v h (fun i hi => hinstr i (hinside _ hi))
      (fun b hb => hblock b (hinside _ hb)) fun k hk => hfunc k (hinside _ hk)
  | .gep inbounds source base vs ty, h, hinstr, hblock, hfunc => by
    have hinside : ∀ w, mentions w base = true →
        mentions w (.gep inbounds source base vs ty) = true := by
      intro w hw
      simp [mentions, hw]
    exact Refers.transport base h (fun i hi => hinstr i (hinside _ hi))
      (fun b hb => hblock b (hinside _ hb)) fun k hk => hfunc k (hinside _ hk)
  | .global _, _, _, _, _ | .int _ _, _, _, _, _ | .float _ _, _, _, _, _ | .null _, _, _, _, _
  | .undef _, _, _, _, _ | .zero _, _, _, _, _ | .bytes _, _, _, _, _ | .array _ _, _, _, _, _
  | .struct _ _, _, _, _, _ => trivial

/-! ## 3. Linked programs -/

/-- What the instructions of live functions refer to is there. -/
structure Linked (G : InstrId → FuncId → Prop) (p : Program) : Prop where
  sound : p.Sound
  operands : ∀ f i, (p.func f).erased = false → p.functionOf? i = some f →
    ∀ v ∈ (p.instr i).operands, Refers G p f v
  incoming : ∀ f i blocks, (p.func f).erased = false → p.functionOf? i = some f →
    (p.instr i).kind = .phi blocks →
    blocks.length = (p.instr i).operands.length ∧ ∀ c ∈ blocks, (p.block c).parent = some f

/-- Every block of a live function is in order. -/
def InOrder (p : Program) : Prop :=
  ∀ f, (p.func f).erased = false → ∀ b ∈ (p.func f).blocks, p.Ordered (p.block b).instrs

theorem Verified.blockFits (hp : p.Sound) (hv : p.Verified) {i : InstrId}
    (hf : (p.func f).erased = false) (hi : p.functionOf? i = some f) :
    ∃ b, i ∈ (p.block b).instrs ∧ b ∈ (p.func f).blocks ∧ p.InstrFits f b i := by
  obtain ⟨b, hb, hparent⟩ := Option.bind_eq_some_iff.mp hi
  have hmem := hp.mem_instrs.mpr hb
  have hlisted := hp.mem_blocks.mpr hparent
  exact ⟨b, hmem, hlisted, (hv f hf b hlisted).instrs i hmem⟩

theorem Verified.linked (hp : p.Sound) (hv : p.Verified) : Linked noGuests p where
  sound := hp
  operands f i hf hi v hmem := by
    obtain ⟨b, -, -, hfits⟩ := hv.blockFits hp hf hi
    exact (operandProblem?_eq_none hp v).mp (hfits.operands v hmem)
  incoming f i blocks hf hi hkind := by
    obtain ⟨b, -, -, hfits⟩ := hv.blockFits hp hf hi
    obtain ⟨hlength, hall⟩ := hfits.incoming blocks hkind
    exact ⟨hlength, fun c hc => (hall c hc).2⟩

theorem Verified.inOrder (hv : p.Verified) : p.InOrder := fun f hf b hb =>
  ⟨(hv f hf b hb).ends, fun i hi => ((hv f hf b hb).instrs i hi).last, (hv f hf b hb).phisFirst⟩

theorem Linked.verified (h : Linked noGuests p) (horder : p.InOrder) : p.Verified := by
  intro f hf b hb
  obtain ⟨hends, hlast, hphis⟩ := horder f hf b hb
  refine ⟨hends, fun i hi => ?_, hphis⟩
  have hparent := h.sound.mem_instrs.mp hi
  have hin : p.functionOf? i = some f :=
    Option.bind_eq_some_iff.mpr ⟨b, hparent, h.sound.mem_blocks.mp hb⟩
  refine ⟨hparent, hlast i hi, fun blocks hkind => ?_, fun v hv => ?_⟩
  · obtain ⟨hlength, hall⟩ := h.incoming f i blocks hf hin hkind
    exact ⟨hlength, fun c hc =>
      ⟨h.sound.block_live_of_listed (h.sound.mem_blocks.mpr (hall c hc)), hall c hc⟩⟩
  · exact (operandProblem?_eq_none h.sound v).mpr (h.operands f i hf hin v hv)

theorem Linked.welcome (h : Linked G p) (hG : ∀ i f, G i f → p.functionOf? i = some f ∨ G' i f) :
    Linked G' p where
  sound := h.sound
  operands f i hf hi v hv := (h.operands f i hf hi v hv).transport v
    (fun j _ hj => hj.elim .inl (hG j f)) (fun _ _ hb => hb) fun _ _ hk => hk
  incoming := h.incoming

/-! ## 4. Changes of instructions where they stand -/

theorem Refers.samePlaces {v : Value} (h : Refers G p f v) (hs : p.SamePlaces q) :
    Refers G q f v :=
  h.transport v (fun i _ hi => hi.imp_left (hs.functionOf i).trans)
    (fun b _ hb => (hs.block b).trans hb) fun k _ hk => by rw [hs.func]; exact hk

theorem Linked.rework (h : Linked G p) (hs : p.SameFrame q) (hfunc : ∀ f, q.func f = p.func f)
    (hoperands : ∀ f i, (p.func f).erased = false → p.functionOf? i = some f →
      ∀ v ∈ (q.instr i).operands, Refers G p f v)
    (hincoming : ∀ f i blocks, (p.func f).erased = false → p.functionOf? i = some f →
      (q.instr i).kind = .phi blocks → blocks.length = (q.instr i).operands.length ∧
        ∀ c ∈ blocks, (p.block c).parent = some f) : Linked G q := by
  have hplaces := hs.places hfunc
  refine ⟨(hs.evolves h.sound).1, fun f i hf hi v hv => ?_, fun f i blocks hf hi hkind => ?_⟩
  · rw [hfunc] at hf
    rw [hplaces.functionOf] at hi
    exact (hoperands f i hf hi v hv).samePlaces hplaces
  · rw [hfunc] at hf
    rw [hplaces.functionOf] at hi
    obtain ⟨hlength, hall⟩ := hincoming f i blocks hf hi hkind
    exact ⟨hlength, fun c hc => (hplaces.block c).trans (hall c hc)⟩

theorem Linked.replaceUses {old new : Value} (h : Linked G p)
    (hnew : ∀ f, (p.func f).erased = false → Refers G p f old → Refers G p f new) :
    Linked G (p.replaceUses old new) := by
  refine h.rework (sameFrame_replaceUses p old new) (fun _ => rfl) (fun f i hf hi v hv => ?_)
    fun f i blocks hf hi hkind => ?_
  · rw [instr_replaceUses] at hv
    split at hv
    · obtain ⟨w, hw, rfl⟩ := List.mem_map.mp hv
      exact (h.operands f i hf hi w hw).substitute (hnew f hf) w
    · exact h.operands f i hf hi v hv
  · rw [kind_replaceUses] at hkind
    obtain ⟨hlength, hall⟩ := h.incoming f i blocks hf hi hkind
    refine ⟨?_, hall⟩
    rw [instr_replaceUses]
    split
    · exact hlength.trans (List.length_map _).symm
    · exact hlength

theorem Linked.undefine (h : Linked G p) (old : Value) (ty : Ty) :
    Linked G (p.replaceUses old (.undef ty)) :=
  h.replaceUses fun _ _ _ => trivial

theorem Linked.updateInstr {g : Instr → Instr} (h : Linked G p)
    (hg : ∀ i, (g i).parent = i.parent ∧ (g i).erased = i.erased)
    (hsub : (g (p.instr id)).operands ⊆ (p.instr id).operands)
    (hphi : ∀ blocks, (g (p.instr id)).kind = .phi blocks →
      ∃ sources, (p.instr id).kind = .phi sources ∧ blocks ⊆ sources ∧
        (sources.length = (p.instr id).operands.length →
          blocks.length = (g (p.instr id)).operands.length)) :
    Linked G (p.updateInstr id g) := by
  refine h.rework (sameFrame_updateInstr hg p id) (fun _ => rfl) (fun f i hf hi v hv => ?_)
    fun f i blocks hf hi hkind => ?_
  · rw [instr_updateInstr] at hv
    split at hv
    · rename_i heq
      obtain ⟨rfl, -⟩ := heq
      exact h.operands f id hf hi v (hsub hv)
    · exact h.operands f i hf hi v hv
  · rw [instr_updateInstr] at hkind ⊢
    split at hkind
    · rename_i heq
      obtain ⟨rfl, hlt⟩ := heq
      obtain ⟨sources, hsources, hblocks, hlength⟩ := hphi blocks hkind
      obtain ⟨hlen, hall⟩ := h.incoming f id sources hf hi hsources
      rw [if_pos ⟨rfl, hlt⟩]
      exact ⟨hlength hlen, fun c hc => hall c (hblocks hc)⟩
    · rename_i hne
      rw [if_neg hne]
      exact h.incoming f i blocks hf hi hkind

theorem Linked.setInstrName (h : Linked G p) (id : InstrId) (name : Option String) :
    Linked G (p.setInstrName id name) :=
  h.updateInstr (fun _ => ⟨rfl, rfl⟩) (List.Subset.refl _)
    fun blocks hkind => ⟨blocks, hkind, List.Subset.refl _, fun h => h⟩

theorem Linked.takeName (h : Linked G p) (source target : InstrId) :
    Linked G (p.takeName source target) :=
  (h.setInstrName source none).setInstrName target _

theorem Linked.forgetEntry (h : Linked G p) (id : InstrId) (source : BlockId) :
    Linked G (p.updateInstr id (forgetEntry · source)) := by
  refine h.updateInstr (g := (Program.forgetEntry · source))
    (fun i => ⟨(forgetEntry_same i source).1, (forgetEntry_same i source).2.1⟩)
    (forgetEntry_same (p.instr id) source).2.2.2 fun blocks hkind => ?_
  cases hphi : (p.instr id).isPhi with
  | false =>
    rw [forgetEntry_plain hphi] at hkind
    rw [Instr.isPhi, hkind] at hphi
    cases hphi
  | true =>
    obtain ⟨sources, hsources⟩ := Instr.isPhi_iff.mp hphi
    unfold Program.forgetEntry at hkind ⊢
    rw [hsources] at hkind ⊢
    cases hkind
    refine ⟨sources, rfl, fun c hc => ?_, fun _ => by rw [List.length_map, List.length_map]⟩
    obtain ⟨⟨v, b⟩, hv, rfl⟩ := List.mem_map.mp hc
    exact (List.of_mem_zip (List.mem_of_mem_filter hv)).2

/-! ## 5. What nothing refers to may go -/

/-- No instruction in a block mentions the value. -/
def Unused (p : Program) (v : Value) : Prop :=
  ∀ i b, (p.instr i).parent = some b → (p.instr i).uses v = false

theorem unused_replaceUses {old new : Value} (hp : p.Sound) (hold : old.isConstant = false)
    (hnew : mentions old new = false) : (p.replaceUses old new).Unused old := by
  intro i b hb
  rw [((sameFrame_replaceUses p old new).instr i).1] at hb
  exact not_uses_replaceUses hold hnew (hp.instr_live (hp.mem_instrs.mpr hb))

theorem Unused.replaceUses {v old new : Value} (h : p.Unused v) (hv : v.isConstant = false)
    (hnew : mentions v new = false) : (p.replaceUses old new).Unused v := by
  intro i b hb
  rw [((sameFrame_replaceUses p old new).instr i).1] at hb
  refine Bool.eq_false_iff.mpr fun huses => ?_
  rcases uses_replaceUses hv huses with huses | huses
  · rw [h i b hb] at huses
    cases huses
  · rw [hnew] at huses
    cases huses

theorem Unused.dropInstr {v : Value} (h : p.Unused v) (id : InstrId) :
    (p.dropInstr id).Unused v := by
  intro i b hb
  by_cases hi : id = i
  · subst hi
    by_cases hlt : id.index < p.instrs.size
    · rw [instr_dropInstr_self hlt] at hb
      cases hb
    · rw [instr_of_le ((sizes_dropInstr p id).2.2 ▸ Nat.not_lt.mp hlt)] at hb
      cases hb
  · rw [instr_dropInstr_ne hi] at hb ⊢
    exact h i b hb

theorem unused_of_hasUses {v : Value} (hp : p.Sound) (h : p.hasUses v = false) : p.Unused v := by
  intro i b hb
  refine Bool.eq_false_iff.mpr fun huses => Bool.eq_false_iff.mp h (hasUses_iff.mpr (.inl ⟨i, ?_⟩))
  exact ⟨hp.instr_live (hp.mem_instrs.mpr hb), by rw [hb]; rfl, huses⟩

theorem parent_of_functionOf {i : InstrId} (h : p.functionOf? i = some f) :
    ∃ b, (p.instr i).parent = some b :=
  (Option.bind_eq_some_iff.mp h).imp fun _ h => h.1

theorem Linked.lose (h : Linked G p) (hq : q.Sound)
    (hlive : ∀ f, (q.func f).erased = false → (p.func f).erased = false)
    (hleft : ∀ f i, q.functionOf? i = some f → p.functionOf? i = some f ∧ q.instr i = p.instr i)
    (hinstr : ∀ f i j, (q.func f).erased = false → q.functionOf? i = some f →
      (p.instr i).uses (.instr j) = true → p.functionOf? j = some f → q.functionOf? j = some f)
    (hblock : ∀ f i b, (q.func f).erased = false → q.functionOf? i = some f →
      (p.instr i).uses (.block b) = true ∨ b ∈ (p.instr i).phiBlocks →
      (p.block b).parent = some f → (q.block b).parent = some f)
    (hfunc : ∀ f i k, (q.func f).erased = false → q.functionOf? i = some f →
      (p.instr i).uses (.func k) = true → (p.func k).erased = false → (q.func k).erased = false) :
    Linked G q := by
  refine ⟨hq, fun f i hf hi v hv => ?_, fun f i blocks hf hi hkind => ?_⟩
  · obtain ⟨hold, hsame⟩ := hleft f i hi
    rw [hsame] at hv
    have huses : ∀ w, mentions w v = true → (p.instr i).uses w = true := fun w hw =>
      Instr.uses_iff.mpr ⟨v, hv, hw⟩
    exact (h.operands f i (hlive f hf) hold v hv).transport v
      (fun j hj hin => hin.imp_left (hinstr f i j hf hi (huses _ hj)))
      (fun b hb => hblock f i b hf hi (.inl (huses _ hb)))
      fun k hk => hfunc f i k hf hi (huses _ hk)
  · obtain ⟨hold, hsame⟩ := hleft f i hi
    rw [hsame] at hkind ⊢
    obtain ⟨hlength, hall⟩ := h.incoming f i blocks (hlive f hf) hold hkind
    refine ⟨hlength, fun c hc => hblock f i c hf hi (.inr ?_) (hall c hc)⟩
    rwa [Instr.phiBlocks, hkind]

theorem functionOf_dropInstr {id i : InstrId} (hi : id ≠ i) :
    (p.dropInstr id).functionOf? i = p.functionOf? i := by
  unfold functionOf?
  rw [instr_dropInstr_ne hi]
  cases (p.instr i).parent with
  | none => rfl
  | some b =>
    simp only [Option.bind_some, block_dropInstr]
    split <;> rfl

theorem not_functionOf_dropInstr {id : InstrId} (hlt : id.index < p.instrs.size) :
    (p.dropInstr id).functionOf? id = none := by
  rw [functionOf?, instr_dropInstr_self hlt]
  rfl

theorem Linked.dropInstr (h : Linked G p) (hlive : (p.instr id).erased = false)
    (hunused : p.Unused (.instr id)) : Linked G (p.dropInstr id) := by
  have hne : ∀ {f i}, (p.dropInstr id).functionOf? i = some f → id ≠ i := by
    rintro f i hi rfl
    rw [not_functionOf_dropInstr (instr_lt_of_live hlive)] at hi
    cases hi
  have hold : ∀ {f i}, (p.dropInstr id).functionOf? i = some f → p.functionOf? i = some f :=
    fun hi => functionOf_dropInstr (hne hi) ▸ hi
  refine h.lose (evolves_dropInstr hlive h.sound).1 (fun f hf => func_dropInstr p id f ▸ hf)
    (fun f i hi => ⟨hold hi, instr_dropInstr_ne (hne hi)⟩) (fun f i j _ hi huses hj => ?_)
    (fun f i b _ _ _ hb => ?_) fun f i k _ _ _ hk => (func_dropInstr p id k).symm ▸ hk
  · rwa [functionOf_dropInstr]
    rintro rfl
    obtain ⟨b, hb⟩ := parent_of_functionOf (hold hi)
    rw [hunused i b hb] at huses
    cases huses
  · rw [block_dropInstr]
    split <;> exact hb

theorem Linked.remove {v : Value} (h : Linked G p) (hlive : (p.instr id).erased = false)
    (hv : mentions (.instr id) v = false)
    (hfits : ∀ f, (p.func f).erased = false → Refers G p f (.instr id) → Refers G p f v) :
    Linked G ((p.replaceUses (.instr id) v).dropInstr id) :=
  (h.replaceUses hfits).dropInstr
    (((sameFrame_replaceUses p (.instr id) v).instr id).2.trans hlive)
    (unused_replaceUses h.sound rfl hv)

theorem Linked.dropBlock {b : BlockId} (h : Linked G p) (hlive : (p.block b).erased = false)
    (hempty : (p.block b).instrs = []) (hunused : p.Unused (.block b))
    (hphis : ∀ f i, (p.func f).erased = false → p.functionOf? i = some f →
      b ∉ (p.instr i).phiBlocks) : Linked G (p.dropBlock b) := by
  have hq := (evolves_dropBlock hlive h.sound).1
  have hinstr : ∀ i, (p.dropBlock b).instr i = p.instr i := by
    intro i
    rw [instr_dropBlock, hempty, if_neg fun hi => List.not_mem_nil hi.1]
  have herased : ∀ f, ((p.dropBlock b).func f).erased = (p.func f).erased := by
    intro f
    rw [func_dropBlock]
    split <;> rfl
  have hback : ∀ {f i}, (p.dropBlock b).functionOf? i = some f → p.functionOf? i = some f := by
    intro f i hi
    obtain ⟨c, hc, hparent⟩ := Option.bind_eq_some_iff.mp hi
    rw [hinstr] at hc
    refine Option.bind_eq_some_iff.mpr ⟨c, hc, ?_⟩
    by_cases hbc : b = c
    · subst hbc
      rw [block_dropBlock_self (block_lt_of_live hlive)] at hparent
      cases hparent
    · rwa [block_dropBlock_ne hbc] at hparent
  refine h.lose hq (fun f hf => herased f ▸ hf) (fun f i hi => ⟨hback hi, hinstr i⟩)
    (fun f i j _ _ _ hj => ?_) (fun f i c hf hi huses hc => ?_) fun f i k _ _ _ hk =>
      (herased k).trans hk
  · obtain ⟨c, hc, hparent⟩ := Option.bind_eq_some_iff.mp hj
    refine Option.bind_eq_some_iff.mpr ⟨c, by rwa [hinstr], ?_⟩
    rwa [block_dropBlock_ne]
    rintro rfl
    -- nothing stands in the block that goes
    have hmem := h.sound.mem_instrs.mpr hc
    rw [hempty] at hmem
    cases hmem
  · rwa [block_dropBlock_ne]
    rintro rfl
    rcases huses with huses | hmem
    · obtain ⟨c, hparent⟩ := parent_of_functionOf (hback hi)
      rw [hunused i c hparent] at huses
      cases huses
    · exact hphis f i (herased f ▸ hf) (hback hi) hmem

/-- A function that nothing uses can go. -/
theorem Linked.dropFunction (h : Linked G p) (hlive : (p.func g).erased = false)
    (hunused : p.Unused (.func g)) : Linked G (p.dropFunction g) := by
  have hp := h.sound
  have hne : ∀ {f}, ((p.dropFunction g).func f).erased = false → g ≠ f := by
    rintro f hf rfl
    rw [func_dropFunction_self hlive] at hf
    cases hf
  refine h.lose (sound_dropFunction hp).1 (fun f hf => ?_) (fun f i hi => left_dropFunction hp hi)
    (fun f i j hf _ _ hj => functionOf_dropFunction hp hj (hne hf)) (fun f i b hf _ _ hb => ?_)
    fun f i k _ hi huses hk => ?_
  · rwa [func_dropFunction hp (hne hf)] at hf
  · rwa [block_dropFunction hp]
    rw [hb]
    exact fun heq => hne hf (Option.some.inj heq).symm
  · rwa [func_dropFunction hp]
    rintro rfl
    obtain ⟨b, hb⟩ := parent_of_functionOf (left_dropFunction hp hi).1
    rw [hunused i b hb] at huses
    cases huses

/-! ## 6. What is new -/

theorem Linked.grow (h : Linked G p) (hq : q.Sound)
    (hinstr : ∀ i f, p.functionOf? i = some f ∨ G i f → q.functionOf? i = some f ∨ G' i f)
    (hblock : ∀ b f, (p.block b).parent = some f → (q.block b).parent = some f)
    (hfunc : ∀ k, (p.func k).erased = false → (q.func k).erased = false)
    (hstands : ∀ f i, (q.func f).erased = false → q.functionOf? i = some f →
      ((p.func f).erased = false ∧ p.functionOf? i = some f ∧
        (q.instr i).kind = (p.instr i).kind ∧ (q.instr i).operands = (p.instr i).operands) ∨
      (q.instr i).isPhi = false ∧ ∀ v ∈ (q.instr i).operands, Refers G' q f v) :
    Linked G' q := by
  refine ⟨hq, fun f i hf hi v hv => ?_, fun f i blocks hf hi hkind => ?_⟩
  · rcases hstands f i hf hi with ⟨hf, hi, -, hoperands⟩ | ⟨-, hall⟩
    · exact (h.operands f i hf hi v (hoperands ▸ hv)).transport v (fun j _ => hinstr j f)
        (fun b _ => hblock b f) fun k _ => hfunc k
    · exact hall v hv
  · rcases hstands f i hf hi with ⟨hf, hi, hsame, hoperands⟩ | ⟨hphi, -⟩
    · obtain ⟨hlength, hall⟩ := h.incoming f i blocks hf hi (hsame.symm.trans hkind)
      exact ⟨hoperands ▸ hlength, fun c hc => hblock c f (hall c hc)⟩
    · rw [Instr.isPhi, hkind] at hphi
      cases hphi

end Program

end QirProfile
