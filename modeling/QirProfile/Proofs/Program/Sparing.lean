import QirProfile.Proofs.Program.Fitting

/-!
# Functions that are left alone

`Spares K p q` says that on the way from `p` to `q` no node has moved, and that of the functions
outside `K` nothing has been erased. New instructions may stand there, and operands may have
changed, but a function that is called by name is still called. Each change of a program spares all
functions but the one it takes something from.
-/

namespace QirProfile

variable {id i : InstrId} {b : BlockId} {bs : List BlockId}

theorem Instr.calledFunction?_substitute {i : Instr} {k : FuncId}
    (h : i.calledFunction? = some k) (v : Value) :
    ({ i with operands := i.operands.map (Value.substitute (.instr id) v) } : Instr).calledFunction?
      = some k := by
  obtain ⟨w, hw, hk⟩ := Option.bind_eq_some_iff.mp h
  have hcall : i.isCall || i.isInvoke := by
    by_contra hnot
    rw [callee?, if_neg hnot] at hw
    cases hw
  rw [callee?, if_pos hcall] at hw
  cases w <;> cases hk
  have hlast : (i.operands.map (Value.substitute (.instr id) v)).getLast? = some (.func k) := by
    rw [List.getLast?_map, hw]
    simp [Value.substitute]
  exact Option.bind_eq_some_iff.mpr ⟨_, (if_pos hcall).trans hlast, rfl⟩

namespace Program

variable {K L : FuncId → Prop} {p q r : Program} {f : FuncId}

theorem instr_lt_of_calledFunction? {k : FuncId}
    (h : (p.instr i).calledFunction? = some k) : i.index < p.instrs.size := by
  by_contra hge
  rw [instr_of_le (Nat.not_lt.mp hge)] at h
  cases h

/-- Nodes stand where they stood, unless they are gone, and of functions outside `K` nothing is. -/
structure Spares (K : FuncId → Prop) (p q : Program) : Prop where
  buries : p.Buries q
  parent : ∀ i : InstrId, i.index < p.instrs.size → (q.instr i).erased = false →
    (q.instr i).parent = (p.instr i).parent
  blockParent : ∀ b : BlockId, b.index < p.blocks.size → (q.block b).erased = false →
    (q.block b).parent = (p.block b).parent
  terminator : ∀ i : InstrId, i.index < p.instrs.size →
    (q.instr i).isTerminator = (p.instr i).isTerminator
  callee : ∀ i k, (q.instr i).erased = false → (p.instr i).calledFunction? = some k →
    (q.instr i).calledFunction? = some k
  /-- A function that goes leaves no body behind. -/
  hollow : ∀ f : FuncId, f.index < p.functions.size →
    (p.func f).erased = false ∨ (p.func f).blocks = [] →
    (q.func f).erased = false ∨ (q.func f).blocks = []
  func : ∀ f, ¬ K f → (p.func f).erased = false → (q.func f).erased = false
  block : ∀ f b, ¬ K f → (p.block b).parent = some f → (q.block b).erased = false
  instr : ∀ f i, ¬ K f → p.functionOf? i = some f → (q.instr i).erased = false

namespace Spares

theorem refl (hp : p.Sound) : Spares K p p where
  buries := .refl p
  parent _ _ _ := rfl
  blockParent _ _ _ := rfl
  terminator _ _ := rfl
  callee _ _ _ h := h
  hollow _ _ h := h
  func _ _ h := h
  block _ _ _ h := hp.block_live_of_listed (hp.mem_blocks.mpr h)
  instr _ _ _ h := hp.live_of_functionOf h

theorem blockOf (h : Spares K p q) (hf : ¬ K f) (hb : (p.block b).parent = some f) :
    (q.block b).parent = some f :=
  (h.blockParent b (block_lt_of_parent hb) (h.block f b hf hb)).trans hb

theorem instrOf (h : Spares K p q) (hf : ¬ K f) (hi : p.functionOf? i = some f) :
    (q.instr i).parent = (p.instr i).parent := by
  obtain ⟨b, hb, -⟩ := Option.bind_eq_some_iff.mp hi
  exact h.parent i (instr_lt_of_parent hb) (h.instr f i hf hi)

theorem functionOf (h : Spares K p q) (hf : ¬ K f) (hi : p.functionOf? i = some f) :
    q.functionOf? i = some f := by
  obtain ⟨b, hb, hparent⟩ := Option.bind_eq_some_iff.mp hi
  exact Option.bind_eq_some_iff.mpr ⟨b, (h.instrOf hf hi).trans hb, h.blockOf hf hparent⟩

theorem erased_back (h : Spares K p q) (hi : i.index < p.instrs.size)
    (hlive : (q.instr i).erased = false) : (p.instr i).erased = false := by
  refine Bool.eq_false_iff.mpr fun herased => ?_
  rw [h.buries.erasedInstr i hi herased] at hlive
  cases hlive

theorem trans (h₁ : Spares K p q) (h₂ : Spares K q r) : Spares K p r where
  buries := h₁.buries.trans h₂.buries
  parent i hi hlive := by
    have hq := Nat.lt_of_lt_of_le hi h₁.buries.instrs
    exact (h₂.parent i hq hlive).trans (h₁.parent i hi (h₂.erased_back hq hlive))
  blockParent b hb hlive := by
    have hq := Nat.lt_of_lt_of_le hb h₁.buries.blocks
    refine (h₂.blockParent b hq hlive).trans (h₁.blockParent b hb (Bool.eq_false_iff.mpr ?_))
    intro herased
    rw [h₂.buries.erasedBlock b hq herased] at hlive
    cases hlive
  terminator i hi :=
    (h₂.terminator i (Nat.lt_of_lt_of_le hi h₁.buries.instrs)).trans (h₁.terminator i hi)
  callee i k hlive hk := by
    have hi := instr_lt_of_calledFunction? hk
    have hq := Nat.lt_of_lt_of_le hi h₁.buries.instrs
    exact h₂.callee i k hlive (h₁.callee i k (h₂.erased_back hq hlive) hk)
  hollow f hf h := h₂.hollow f (Nat.lt_of_lt_of_le hf h₁.buries.functions) (h₁.hollow f hf h)
  func f hf h := h₂.func f hf (h₁.func f hf h)
  block f b hf h := h₂.block f b hf (h₁.blockOf hf h)
  instr f i hf h := h₂.instr f i hf (h₁.functionOf hf h)

theorem mono (h : Spares K p q) (hp : p.Sound)
    (hKL : ∀ f : FuncId, f.index < p.functions.size → K f → L f) : Spares L p q where
  buries := h.buries
  parent := h.parent
  blockParent := h.blockParent
  terminator := h.terminator
  callee := h.callee
  hollow := h.hollow
  func f hf hlive := h.func f (fun hK => hf (hKL f (func_lt_of_live hlive) hK)) hlive
  block f b hf hb :=
    h.block f b (fun hK => hf (hKL f (func_lt_of_mem (hp.mem_blocks.mpr hb)) hK)) hb
  instr f i hf hi := by
    obtain ⟨b, -, hb⟩ := Option.bind_eq_some_iff.mp hi
    exact h.instr f i (fun hK => hf (hKL f (func_lt_of_mem (hp.mem_blocks.mpr hb)) hK)) hi

theorem trans_old (h₁ : Spares K p q) (h₂ : Spares L q r) (hp : p.Sound) (hq : q.Sound)
    (hLK : ∀ f : FuncId, f.index < p.functions.size → L f → K f) : Spares K p r := by
  have hpq : Spares (fun f => K f ∨ p.functions.size ≤ f.index) p q := h₁.mono hp fun _ _ => .inl
  have hqr : Spares (fun f => K f ∨ p.functions.size ≤ f.index) q r := h₂.mono hq fun f _ hL =>
    (Nat.lt_or_ge f.index p.functions.size).imp (hLK f · hL) id
  refine (hpq.trans hqr).mono hp fun f hlt hK => hK.resolve_right ?_
  exact Nat.not_le.mpr hlt

end Spares

/-! ## 1. Changes that take nothing away -/

theorem SameFrame.spares (h : p.SameFrame q) (hp : p.Sound)
    (hterm : ∀ i, (q.instr i).isTerminator = (p.instr i).isTerminator)
    (hcallee : ∀ i k, (p.instr i).calledFunction? = some k → (q.instr i).calledFunction? = some k) :
    Spares K p q where
  buries := (h.evolves hp).2
  parent i _ _ := (h.instr i).1
  blockParent b _ _ := (h.block b).1
  terminator i _ := hterm i
  callee i k _ := hcallee i k
  hollow f _ := by
    rw [(h.func f).1, (h.func f).2.1]
    exact id
  func f _ hf := (h.func f).2.1.trans hf
  block f b _ hb := (h.block b).2.2.trans (hp.block_live_of_listed (hp.mem_blocks.mpr hb))
  instr f i _ hi := (h.instr i).2.trans (hp.live_of_functionOf hi)

theorem spares_replaceUses (hp : p.Sound) (id : InstrId) (v : Value) :
    Spares K p (p.replaceUses (.instr id) v) := by
  refine (sameFrame_replaceUses p _ v).spares hp (fun i => ?_) fun i k hk => ?_
  · rw [Instr.isTerminator, kind_replaceUses]
    rfl
  · rw [instr_replaceUses]
    split
    · exact Instr.calledFunction?_substitute hk v
    · exact hk

theorem spares_setInstrName (hp : p.Sound) (id : InstrId) (name : Option String) :
    Spares K p (p.setInstrName id name) := by
  refine (sameFrame_setInstrName p id name).spares hp (fun i => ?_) fun i k hk => ?_
  all_goals
    obtain ⟨n, hn⟩ := instr_setInstrName p id name i
    rw [hn]
  · rfl
  · exact hk

theorem spares_takeName (hp : p.Sound) (source target : InstrId) :
    Spares K p (p.takeName source target) := by
  have hq := ((sameFrame_setInstrName p source none).evolves hp).1
  exact (spares_setInstrName hp source none).trans (spares_setInstrName hq target _)

theorem spares_setKind {marker : TailMarker} (hp : p.Sound)
    (hcall : ∃ m, (p.instr id).kind = .call m) (hset : p.setKind id (.call marker) = .ok q) :
    Spares K p q := by
  obtain ⟨u, -, hset⟩ := except_bind_ok.mp hset
  cases hset
  obtain ⟨m, hm⟩ := hcall
  refine (sameFrame_updateInstr (g := ({ · with kind := .call marker })) (fun _ => ⟨rfl, rfl⟩) p
    id).spares hp (fun i => ?_) fun i k hk => ?_
  all_goals
    rw [instr_updateInstr]
    split
    swap
    · first | rfl | exact hk
    rename_i heq
    rw [heq.1] at hm
  · rw [Instr.isTerminator, Instr.isTerminator, hm]
    rfl
  · rw [Instr.calledFunction?, Instr.callee?, Instr.isCall, hm] at hk
    exact hk

theorem Inserted.spares {d : Edit.Draft} {anchor new : InstrId}
    {front back : List InstrId} (h : Inserted p q d anchor new b front back) (hp : p.Sound) :
    Spares K p q where
  buries := (h.evolves hp).2
  parent i hi _ := by rw [h.instr i (h.ne_new hi)]
  blockParent c _ _ := h.parent c
  terminator i hi := by rw [h.instr i (h.ne_new hi)]
  callee i k _ hk := by rwa [h.instr i (h.ne_new (instr_lt_of_calledFunction? hk))]
  hollow f _ := by
    rw [h.func]
    exact id
  func f _ hf := by rwa [h.func]
  block f c _ hc := by
    have hparent := (h.parent c).trans hc
    have hq := (h.evolves hp).1
    exact hq.block_live_of_listed (hq.mem_blocks.mpr hparent)
  instr f i _ hi := by
    have hlive := hp.live_of_functionOf hi
    rw [h.instr i (h.ne_new (instr_lt_of_live hlive))]
    exact hlive

/-! ## 2. Nodes that go -/

theorem spares_dropInstr (hp : p.Sound) (hlive : (p.instr id).erased = false)
    (hK : ∀ f, p.functionOf? id = some f → K f) : Spares K p (p.dropInstr id) := by
  have hinstr : ∀ i, ((p.dropInstr id).instr i).erased = false →
      (p.dropInstr id).instr i = p.instr i := by
    intro i hi
    refine instr_dropInstr_ne fun he => ?_
    subst he
    rw [instr_dropInstr_self (instr_lt_of_live hlive)] at hi
    cases hi
  have hblock : ∀ b, ((p.dropInstr id).block b).parent = (p.block b).parent ∧
      ((p.dropInstr id).block b).erased = (p.block b).erased := by
    intro b
    rw [block_dropInstr]
    split <;> exact ⟨rfl, rfl⟩
  refine ⟨(evolves_dropInstr hlive hp).2, fun i _ hi => by rw [hinstr i hi],
    fun b _ _ => (hblock b).1, fun i _ => ?_, fun i k hi hk => by rwa [hinstr i hi],
    fun f _ h => ?_,
    fun f _ hf => ?_, fun f b _ hb => ?_, fun f i hf hi => ?_⟩
  · by_cases hi : id = i
    · subst hi
      rw [instr_dropInstr_self (instr_lt_of_live hlive)]
      rfl
    · rw [instr_dropInstr_ne hi]
  · rwa [func_dropInstr]
  · rwa [func_dropInstr]
  · exact (hblock b).2.trans (hp.block_live_of_listed (hp.mem_blocks.mpr hb))
  · have hne : id ≠ i := fun he => hf (hK f (he ▸ hi))
    rw [instr_dropInstr_ne hne]
    exact hp.live_of_functionOf hi

theorem block_dropBlock (p : Program) (b c : BlockId) : (p.dropBlock b).block c = p.block c ∨
    (p.dropBlock b).block c = { p.block c with parent := none, instrs := [], erased := true } := by
  by_cases hbc : b = c
  · subst hbc
    by_cases hlt : b.index < p.blocks.size
    · exact .inr (block_dropBlock_self hlt)
    · have hle := Nat.not_lt.mp hlt
      rw [block_of_le hle, block_of_le ((sizes_dropBlock p b).2.1 ▸ hle)]
      exact .inl rfl
  · exact .inl (block_dropBlock_ne hbc)

theorem instr_dropBlocks
    (h : ∀ b ∈ bs, i ∉ (p.block b).instrs) : (p.dropBlocks bs).instr i = p.instr i := by
  induction bs generalizing p with
  | nil => rfl
  | cons b bs ih =>
    refine (ih fun c hc => ?_).trans ?_
    · rcases block_dropBlock p b c with he | he <;> rw [he]
      · exact h c (List.mem_cons_of_mem b hc)
      · exact List.not_mem_nil
    · rw [instr_dropBlock, if_neg fun hmem => h b List.mem_cons_self hmem.1]

theorem func_dropBlocks (h : ∀ b ∈ bs, (p.block b).parent ≠ some f) :
    (p.dropBlocks bs).func f = p.func f := by
  induction bs generalizing p with
  | nil => rfl
  | cons b bs ih =>
    refine (ih fun c hc => ?_).trans ?_
    · rcases block_dropBlock p b c with he | he <;> rw [he]
      · exact h c (List.mem_cons_of_mem b hc)
      · exact nofun
    · rw [func_dropBlock, if_neg (h b List.mem_cons_self)]

theorem erased_dropBlocks
    (h : b ∈ bs ∨ (p.block b).erased = true) : ((p.dropBlocks bs).block b).erased = true := by
  induction bs generalizing p with
  | nil => exact h.resolve_left List.not_mem_nil
  | cons c bs ih =>
    refine ih ?_
    by_cases hb : b ∈ bs
    · exact .inl hb
    refine .inr ?_
    rcases block_dropBlock p c b with he | he
    · rcases h with h | h
      · obtain rfl := (List.mem_cons.mp h).resolve_right hb
        by_cases hlt : b.index < p.blocks.size
        · rw [block_dropBlock_self hlt]
        · rw [he, block_of_le (Nat.not_lt.mp hlt)]
          rfl
      · rwa [he]
    · rw [he]

theorem erased_instr_dropBlocks
    (h : (∃ b ∈ bs, i ∈ (p.block b).instrs) ∨ (p.instr i).erased = true) :
    ((p.dropBlocks bs).instr i).erased = true := by
  induction bs generalizing p with
  | nil => exact h.resolve_left fun ⟨_, hb, _⟩ => List.not_mem_nil hb
  | cons c bs ih =>
    refine ih ?_
    rw [instr_dropBlock]
    split
    · exact .inr rfl
    rename_i hout
    rcases h with ⟨b, hb, hi⟩ | h
    · by_cases hlt : i.index < p.instrs.size
      · have hne : c ≠ b := fun he => hout ⟨he ▸ hi, hlt⟩
        refine .inl ⟨b, (List.mem_cons.mp hb).resolve_left hne.symm, ?_⟩
        rwa [block_dropBlock_ne hne]
      · rw [instr_of_le (Nat.not_lt.mp hlt)]
        exact .inr rfl
    · exact .inr h

theorem functions_dropFunction (p : Program) (g : FuncId) :
    (p.dropFunction g).functions.size = p.functions.size :=
  (Array.size_modify ..).trans (sizes_dropBlocks p _).1

section

variable {g : FuncId} (hp : p.Sound)

include hp

theorem sound_dropFunction : (p.dropFunction g).Sound ∧ p.Buries (p.dropFunction g) :=
  ((evolves_dropBlocks (hp.nodup_blocks g) fun _ hb => hp.block_live_of_listed hb).trans
    (evolves_updateFunc_erased _ g)) hp

theorem func_dropFunction (h : g ≠ f) : (p.dropFunction g).func f = p.func f := by
  rw [dropFunction, func_updateFunc_ne h]
  refine func_dropBlocks fun b hb hparent => h ?_
  rw [hp.mem_blocks.mp hb] at hparent
  exact Option.some.inj hparent

theorem block_dropFunction (h : (p.block b).parent ≠ some g) :
    (p.dropFunction g).block b = p.block b :=
  block_dropBlocks fun hmem => h (hp.mem_blocks.mp hmem)

theorem instr_dropFunction (h : p.functionOf? i ≠ some g) :
    (p.dropFunction g).instr i = p.instr i :=
  instr_dropBlocks fun _ hb hi => h (hp.functionOf_of_mem hb hi)

theorem functionOf_dropFunction (h : p.functionOf? i = some f) (hne : g ≠ f) :
    (p.dropFunction g).functionOf? i = some f := by
  obtain ⟨b, hb, hparent⟩ := Option.bind_eq_some_iff.mp h
  refine Option.bind_eq_some_iff.mpr ⟨b, ?_, ?_⟩
  · rw [instr_dropFunction hp fun heq => hne (Option.some.inj (heq.symm.trans h))]
    exact hb
  · rw [block_dropFunction hp fun heq => hne (Option.some.inj (heq.symm.trans hparent))]
    exact hparent

theorem erased_dropFunction (h : p.functionOf? i = some g) :
    ((p.dropFunction g).instr i).erased = true := by
  obtain ⟨b, hb, hparent⟩ := Option.bind_eq_some_iff.mp h
  exact erased_instr_dropBlocks (.inl ⟨b, hp.mem_blocks.mpr hparent, hp.mem_instrs.mpr hb⟩)

theorem erased_block_dropFunction (h : (p.block b).parent = some g) :
    ((p.dropFunction g).block b).erased = true :=
  erased_dropBlocks (.inl (hp.mem_blocks.mpr h))

theorem blocks_dropFunction : ((p.dropFunction g).func g).blocks = [] := by
  have hq := (sound_dropFunction hp (g := g)).1
  refine List.eq_nil_iff_forall_not_mem.mpr fun b hb => ?_
  have hparent := hq.mem_blocks.mp hb
  by_cases hold : (p.block b).parent = some g
  · rw [(hq.erasedBlock b (erased_block_dropFunction hp hold)).1] at hparent
    cases hparent
  · rw [block_dropFunction hp hold] at hparent
    exact hold hparent

theorem left_dropFunction (h : (p.dropFunction g).functionOf? i = some f) :
    p.functionOf? i = some f ∧ (p.dropFunction g).instr i = p.instr i := by
  obtain ⟨b, hb, hparent⟩ := Option.bind_eq_some_iff.mp h
  have hq := (sound_dropFunction hp (g := g)).1
  have hnot : p.functionOf? i ≠ some g := fun hg => by
    have hgone := erased_dropFunction hp hg
    rw [hq.instr_live (hq.mem_instrs.mpr hb)] at hgone
    cases hgone
  have hsame := instr_dropFunction hp hnot
  refine ⟨?_, hsame⟩
  rw [hsame] at hb
  refine Option.bind_eq_some_iff.mpr ⟨b, hb, ?_⟩
  rwa [block_dropFunction hp] at hparent
  exact fun hg => hnot (Option.bind_eq_some_iff.mpr ⟨b, hb, hg⟩)

/-- Other functions are left alone when one goes. -/
theorem spares_dropFunction (hg : K g) : Spares K p (p.dropFunction g) := by
  have hburies := (sound_dropFunction hp (g := g)).2
  have hne : ∀ f, ¬ K f → g ≠ f := fun f hf he => hf (he ▸ hg)
  have hinstr : ∀ i, ((p.dropFunction g).instr i).erased = false → p.functionOf? i ≠ some g := by
    intro i hlive hin
    rw [erased_dropFunction hp hin] at hlive
    cases hlive
  refine ⟨hburies, fun i hi hlive => ?_, fun b hb hlive => ?_, fun i _ => ?_,
    fun i k hlive hk => ?_, fun f _ h => ?_, fun f hf hlive => ?_, fun f b hf hb => ?_,
    fun f i hf hi => ?_⟩
  · rw [instr_dropFunction hp (hinstr i hlive)]
  · rw [block_dropFunction hp fun hin => ?_]
    rw [erased_block_dropFunction hp hin] at hlive
    cases hlive
  · obtain ⟨_, _, he⟩ := same_dropFunction p g i
    rw [he]
    rfl
  · rwa [instr_dropFunction hp (hinstr i hlive)]
  · by_cases hfg : g = f
    · subst hfg
      exact .inr (blocks_dropFunction hp)
    · rwa [func_dropFunction hp hfg]
  · rwa [func_dropFunction hp (hne f hf)]
  · rw [block_dropFunction hp fun heq => hne f hf (Option.some.inj (heq.symm.trans hb))]
    exact hp.block_live_of_listed (hp.mem_blocks.mpr hb)
  · rw [instr_dropFunction hp fun heq => hne f hf (Option.some.inj (heq.symm.trans hi))]
    exact hp.live_of_functionOf hi

end

end Program

end QirProfile
