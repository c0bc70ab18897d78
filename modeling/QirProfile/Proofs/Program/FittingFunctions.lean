import QirProfile.Proofs.Program.Sparing

/-!
# Functions that fit while others come and go

Cutting an edge, erasing a function and copying one keep a program fitting. A function may go once
nothing refers to it but what is left out of account. A copy has the height of its source; if the
source has no age, the copy is the youngest of all functions (`Layers.copied`).
-/

namespace QirProfile

namespace Layers

variable {γ : Layers} {c f g k : FuncId} {n : Nat}

/-- The layers with a copy `c` of `g`. The copy is of the age of `g`, or of age `n` if that has
    none. -/
def copied (γ : Layers) (c g : FuncId) (n : Nat) : Layers where
  height k := if k = c then γ.height g else γ.height k
  age k := if k = c then some ((γ.age g).getD n) else γ.age k

theorem height_copied_self : (γ.copied c g n).height c = γ.height g := if_pos rfl

theorem age_copied_self : (γ.copied c g n).age c = some ((γ.age g).getD n) := if_pos rfl

theorem height_copied (h : k ≠ c) : (γ.copied c g n).height k = γ.height k := if_neg h

theorem age_copied (h : k ≠ c) : (γ.copied c g n).age k = γ.age k := if_neg h

theorem under_copied (hk : k ≠ c) (hf : f ≠ c) : (γ.copied c g n).Under k f ↔ γ.Under k f := by
  unfold Under
  rw [age_copied hk, age_copied hf, height_copied hk, height_copied hf]

theorem Under.of_copied (h : γ.Under k g) (hk : k ≠ c) : (γ.copied c g n).Under k c := by
  obtain ⟨m, hm, hlt | ⟨heq, m', hg, hlt⟩⟩ := h
  · exact ⟨m, (age_copied hk).trans hm, .inl (by rwa [height_copied hk, height_copied_self])⟩
  · refine ⟨m, (age_copied hk).trans hm, .inr ⟨?_, m', ?_, hlt⟩⟩
    · rwa [height_copied hk, height_copied_self]
    · rw [age_copied_self, hg]
      rfl

theorem Under.copied (h : γ.Under g f) (hf : f ≠ c) : (γ.copied c g n).Under c f := by
  obtain ⟨m, hm, hlt⟩ := h
  refine ⟨m, by rw [age_copied_self, hm]; rfl, ?_⟩
  rwa [height_copied_self, height_copied hf, age_copied hf]

theorem Reach.copied {m : Nat} (h : γ.Reach g f) (hf : γ.age f = some m) (hm : m < n)
    (hne : f ≠ c) : (γ.copied c g n).Under c f := by
  rcases h with hunder | ⟨hg, hheight⟩
  · exact hunder.copied hne
  · refine ⟨n, by rw [age_copied_self, hg]; rfl, ?_⟩
    rw [height_copied_self, height_copied hne, age_copied hne]
    rcases Nat.lt_or_eq_of_le hheight with hlt | heq
    · exact .inl hlt
    · exact .inr ⟨heq, m, hf, hm⟩

theorem extends_copied {size : Nat} (h : c.index = size) : γ.Extends (γ.copied c g n) size := by
  intro k hk
  have hne : k ≠ c := by
    rintro rfl
    omega
  exact ⟨height_copied hne, age_copied hne⟩

end Layers

theorem Renaming.value_of_isLocal {r : Renaming} {v : Value} (h : v.isLocal = false) :
    r.value v = v := by
  cases v <;> first | rfl | cases h

namespace Program

variable {γ : Layers} {U D : List InstrId} {K : FuncId → Prop} {p q r : Program} {f g : FuncId}

/-! ## 1. Cut edges -/

/-- The changes that keep a program fitting and spare all functions outside `K`. -/
def Refits (γ : Layers) (U D : List InstrId) (K : FuncId → Prop) (p q : Program) : Prop :=
  Fitting γ U D p → Fitting γ U D q ∧ Spares K p q

instance : IsPreorder Program (Refits γ U D K) where
  refl _ h := ⟨h, .refl h.sound⟩
  trans _ _ _ h₁ h₂ h := by
    obtain ⟨hq, hpq⟩ := h₁ h
    obtain ⟨hr, hqr⟩ := h₂ hq
    exact ⟨hr, hpq.trans hqr⟩

theorem refits_cutEdge {b source : BlockId} (h : p.cutEdge b source = .ok q) :
    Refits γ U D K p q := by
  refine cutEdge_keeps (fun p id hp => ⟨hp.forgetEntry id source, ?_⟩) h
  refine (sameFrame_updateInstr (g := (forgetEntry · source)) (fun i => ?_) p id).spares hp.sound
    (fun i => ?_) fun i k hk => ?_
  · exact ⟨(forgetEntry_same i source).1, (forgetEntry_same i source).2.1⟩
  · rw [instr_updateInstr]
    split
    · exact isTerminator_forgetEntry ..
    · rfl
  · rw [instr_updateInstr]
    split
    · rename_i heq
      -- a phi calls nothing
      have hplain : (p.instr i).isPhi = false := by
        refine Bool.eq_false_iff.mpr fun hphi => ?_
        obtain ⟨blocks, hkind⟩ := Instr.isPhi_iff.mp hphi
        rw [Instr.calledFunction?, Instr.callee?, Instr.isCall, Instr.isInvoke, hkind] at hk
        cases hk
      rw [forgetEntry_plain hplain]
      exact hk
    · exact hk

/-! ## 2. Functions that go -/

theorem Fitting.dropFunction (h : Fitting γ U D p)
    (hunused : ∀ f i, f ≠ g → (p.func f).erased = false → p.functionOf? i = some f → i ∉ D →
      (p.instr i).uses (.func g) = false) : Fitting γ U D (p.dropFunction g) := by
  have hp := h.sound
  obtain ⟨hq, hburies⟩ := sound_dropFunction hp (g := g)
  refine ⟨hq, fun f n hn => ?_, fun i hi => Nat.lt_of_lt_of_le (h.bounded i hi) hburies.instrs,
    fun f hf b hb => ?_⟩
  · obtain ⟨hlt, hle⟩ := h.ages f n hn
    exact ⟨Nat.lt_of_lt_of_le hlt hburies.functions, Nat.le_trans hle hburies.functions⟩
  have hne : g ≠ f := by
    rintro rfl
    rw [blocks_dropFunction hp] at hb
    cases hb
  rw [func_dropFunction hp hne] at hf hb
  have hother : ∀ {o : Option FuncId}, o = some f → o ≠ some g :=
    fun hof hog => hne (Option.some.inj (hog.symm.trans hof))
  have hbody := h.bodies f hf b hb
  have hstanding : (p.dropFunction g).standing D b = p.standing D b := by
    unfold standing
    rw [block_dropFunction hp (hother (hp.mem_blocks.mp hb))]
  have hsame : ∀ i ∈ p.standing D b, (p.dropFunction g).instr i = p.instr i :=
    fun i hi => instr_dropFunction hp (hother (h.functionOf hb hi))
  have hblock : ∀ c, (p.block c).parent = some f →
      ((p.dropFunction g).block c).parent = some f := by
    intro c hc
    rw [block_dropFunction hp (hother hc)]
    exact hc
  refine ⟨hstanding ▸ hbody.order.congr fun i hi => by rw [hsame i hi]; exact ⟨rfl, rfl⟩,
    fun i hi => ?_⟩
  rw [hstanding] at hi
  rw [hsame i hi]
  have hnot := hunused f i hne.symm hf (h.functionOf hb hi) (mem_standing.mp hi).2
  have hfunc : ∀ k, (p.instr i).uses (.func k) = true → (p.dropFunction g).func k = p.func k := by
    intro k hk
    refine func_dropFunction hp ?_
    rintro rfl
    rw [hnot] at hk
    cases hk
  refine (hbody.fits i hi).same hblock (fun v hv hfits => ?_) fun k n hk hcallee => ?_
  · refine hfits.transport hq (fun j _ hj hU => ⟨functionOf_dropFunction hp hj hne, hU⟩) hblock
      (fun k hk hlive => ?_) (by rw [func_dropFunction hp hne]) fun _ hk => hk
    rwa [hfunc k (Instr.uses_iff.mpr ⟨v, hv, hk⟩)]
  · obtain ⟨h₁, h₂, h₃, h₄, h₅⟩ := hcallee
    rw [← hfunc k (Instr.uses_of_mem hk)] at h₁ h₄ h₅
    exact ⟨h₁, h₂, h₃, h₄, h₅⟩

/-! ## 3. Copies -/

theorem mem_paramValues {copy : FuncId} {constants : List (Nat × Value)} {params : List Param}
    {index next : Nat} {v : Value} (h : v ∈ paramValues copy constants index next params) :
    (∃ c ∈ constants, v = c.2) ∨ ∃ m, v = .arg copy m ∧
      m < next + ((params.zipIdx index).filter fun (_, i) =>
        (givenFor? constants i).isNone).length := by
  induction params generalizing index next with
  | nil => cases h
  | cons x params ih =>
    rw [List.zipIdx_cons]
    unfold paramValues at h
    cases hgiven : givenFor? constants index with
    | some w =>
      rw [hgiven] at h
      rw [List.filter_cons_of_neg (by simp [hgiven])]
      rcases List.mem_cons.mp h with rfl | h
      · obtain ⟨c, hc, rfl⟩ := Option.map_eq_some_iff.mp hgiven
        exact .inl ⟨c, List.mem_reverse.mp (List.mem_of_find?_eq_some hc), rfl⟩
      · exact ih h
    | none =>
      rw [hgiven] at h
      rw [List.filter_cons_of_pos (by simp [hgiven]), List.length_cons]
      rcases List.mem_cons.mp h with rfl | h
      · exact .inr ⟨next, rfl, by omega⟩
      · refine (ih h).imp_right ?_
        rintro ⟨m, rfl, hm⟩
        exact ⟨m, rfl, by omega⟩

theorem length_paramValues {copy : FuncId} {constants : List (Nat × Value)} {params : List Param}
    {index next : Nat} : (paramValues copy constants index next params).length = params.length := by
  induction params generalizing index next with
  | nil => rfl
  | cons x params ih =>
    unfold paramValues
    split <;> simp [ih]

theorem Ordered.map {ids : List InstrId} {φ : InstrId → InstrId} (h : p.Ordered ids)
    (hshape : ∀ i ∈ ids, (q.instr (φ i)).isTerminator = (p.instr i).isTerminator ∧
      (q.instr (φ i)).isPhi = (p.instr i).isPhi) : q.Ordered (ids.map φ) := by
  obtain ⟨last, hlast, hterm⟩ := h.ends
  refine ⟨⟨φ last, by rw [List.getLast?_map, hlast]; rfl, ?_⟩, fun j hj ht => ?_, ?_⟩
  · rw [(hshape last (List.mem_of_getLast? hlast)).1]
    exact hterm
  · obtain ⟨i, hi, rfl⟩ := List.mem_map.mp hj
    rw [(hshape i hi).1] at ht
    rw [List.getLast?_map, h.last i hi ht]
    rfl
  · refine List.pairwise_map.mpr (h.phisFirst.imp_of_mem fun hi hj hij => ?_)
    rwa [(hshape _ hi).2, (hshape _ hj).2]

section

variable {constants : List (Nat × Value)}

theorem func_withCopy_old {k : FuncId} (hk : k.index < p.functions.size) :
    (p.withCopy g constants).func k = p.func k := by
  rw [func_withCopy, if_neg (by omega)]

theorem parent_withCopy_old {b : BlockId} (hb : (p.block b).parent = some f) :
    ((p.withCopy g constants).block b).parent = some f := by
  rwa [block_withCopy_old (block_lt_of_parent hb)]

theorem functionOf_withCopy_old {i : InstrId} (hi : p.functionOf? i = some f) :
    (p.withCopy g constants).functionOf? i = some f := by
  obtain ⟨b, hb, hf⟩ := Option.bind_eq_some_iff.mp hi
  refine Option.bind_eq_some_iff.mpr ⟨b, ?_, parent_withCopy_old hf⟩
  rwa [instr_withCopy_old (instr_lt_of_parent hb)]

theorem spares_withCopy (hp : p.Sound) : Spares K p (p.withCopy g constants) where
  buries := (evolves_withCopy p g constants hp).2
  parent i hi _ := by rw [instr_withCopy_old hi]
  blockParent b hb _ := by rw [block_withCopy_old hb]
  terminator i hi := by rw [instr_withCopy_old hi]
  callee i k _ hk := by rwa [instr_withCopy_old (instr_lt_of_calledFunction? hk)]
  hollow f hf h := by rwa [func_withCopy_old hf]
  func f _ hf := by rwa [func_withCopy_old (func_lt_of_live hf)]
  block f b _ hb := by
    rw [block_withCopy_old (block_lt_of_parent hb)]
    exact hp.block_live_of_listed (hp.mem_blocks.mpr hb)
  instr f i _ hi := by
    have hlive := hp.live_of_functionOf hi
    rwa [instr_withCopy_old (instr_lt_of_live hlive)]

variable (hp : p.Sound)

include hp

theorem parent_withCopy_new {b : BlockId} (hb : (p.block b).parent = some g) :
    ((p.withCopy g constants).block ((p.copyRenaming g constants).block b)).parent =
      some ⟨p.functions.size⟩ := by
  rw [block_withCopy_new hp g constants (hp.mem_blocks.mpr hb)]
  rfl

theorem functionOf_withCopy_new {i : InstrId} (hi : p.functionOf? i = some g) :
    (p.withCopy g constants).functionOf? ((p.copyRenaming g constants).instrId i) =
      some ⟨p.functions.size⟩ := by
  obtain ⟨b, hb, hparent⟩ := Option.bind_eq_some_iff.mp hi
  refine Option.bind_eq_some_iff.mpr ⟨(p.copyRenaming g constants).block b, ?_,
    parent_withCopy_new hp hparent⟩
  have hmem := hp.mem_instrsOf.mpr hi
  rw [instr_withCopy_new hp g constants hmem]
  exact (parent_copy hp g constants (hp.mem_blocks.mpr hparent) hmem).mpr hb

theorem le_instrId_copy {i : InstrId} (hi : p.functionOf? i = some g) :
    p.instrs.size ≤ ((p.copyRenaming g constants).instrId i).index :=
  Renaming.le_instrId (r := p.copyRenaming g constants) (hp.nodup_instrsOf g)
    (hp.mem_instrsOf.mpr hi)

end

theorem OperandFits.withCopy {constants : List (Nat × Value)} {n : Nat} {v : Value}
    (h : OperandFits γ U p f v) (hp : Fitting γ U D p) (hf : (p.func f).erased = false) :
    OperandFits (γ.copied ⟨p.functions.size⟩ g n) U (p.withCopy g constants) f v := by
  have hold : ∀ {k : FuncId}, k.index < p.functions.size → k ≠ ⟨p.functions.size⟩ := by
    rintro k hk rfl
    exact Nat.lt_irrefl _ hk
  have hlt := func_lt_of_live hf
  refine h.transport (evolves_withCopy p g constants hp.sound).1
    (fun i _ hi hU => ⟨functionOf_withCopy_old hi, hU⟩) (fun b hb => parent_withCopy_old hb)
    (fun k _ hk => ?_) (by rw [func_withCopy_old hlt]) fun k hk => ?_
  · rwa [func_withCopy_old (func_lt_of_live hk)]
  · obtain ⟨m, hm, -⟩ := id hk
    exact (Layers.under_copied (hold (hp.ages k m hm).1) (hold hlt)).mpr hk

theorem OperandFits.copy {constants : List (Nat × Value)} {n : Nat} {v : Value}
    (h : OperandFits γ U p g v) (hp : Fitting γ U D p)
    (hconstants : ∀ c ∈ constants, ∃ bits value, c.2 = .int bits value) :
    OperandFits (γ.copied ⟨p.functions.size⟩ g n) U (p.withCopy g constants) ⟨p.functions.size⟩
      ((p.copyRenaming g constants).value v) := by
  have hq := (evolves_withCopy p g constants hp.sound).1
  cases hlocal : v.isLocal with
  | false =>
    rw [Renaming.value_of_isLocal hlocal]
    refine ⟨h.flat, ?_, ?_, ?_, fun k hk => ?_⟩
    · refine operandProblem?_of_live v (fun w hw => h.not_mentions hlocal hw) (fun k _ hk => ?_)
        h.problem
      rwa [func_withCopy_old (func_lt_of_live hk)]
    · rintro k m rfl
      cases hlocal
    · rintro i rfl
      cases hlocal
    · obtain ⟨m, hm, -⟩ := id (h.under k hk)
      refine (h.under k hk).of_copied ?_
      rintro rfl
      exact Nat.lt_irrefl _ (hp.ages _ m hm).1
  | true =>
    cases v <;> simp only [Value.isLocal, Bool.false_eq_true] at hlocal
    case instr i =>
      have hi := h.functionOf
      rw [Renaming.value_instr]
      refine .of_instr hq (functionOf_withCopy_new hp.sound hi) fun hU => ?_
      have hlt := hp.bounded _ (.inl hU)
      exact absurd (le_instrId_copy hp.sound hi) (Nat.not_le.mpr hlt)
    case block b => exact .of_block hq (parent_withCopy_new hp.sound h.parent)
    case arg k m =>
      obtain rfl := h.owner
      have hm := h.inRange k m rfl
      have hlength : m < (p.copyRenaming k constants).params.length := by
        rw [copyRenaming, length_paramValues]
        exact hm
      have hvalue : (p.copyRenaming k constants).value (.arg k m) =
          (p.copyRenaming k constants).params[m] := by
        refine (if_pos rfl).trans ?_
        rw [List.getD_eq_getElem?_getD, List.getElem?_eq_getElem hlength]
        rfl
      rw [hvalue]
      rcases mem_paramValues (List.getElem_mem hlength) with ⟨c, hc, heq⟩ | ⟨i, heq, hi⟩
      · obtain ⟨bits, value, hint⟩ := hconstants c hc
        rw [heq, hint]
        exact .of_int bits value
      · rw [heq]
        refine .of_arg ?_
        rw [func_withCopy, if_pos rfl]
        simpa [copyFunc] using hi

theorem CalleeFits.withCopy {constants : List (Nat × Value)} {n arity : Nat} {k f' : FuncId}
    (h : CalleeFits γ p f k arity)
    (hheight : (γ.copied ⟨p.functions.size⟩ g n).height f' = γ.height f) :
    CalleeFits (γ.copied ⟨p.functions.size⟩ g n) (p.withCopy g constants) f' k arity := by
  have hlt := func_lt_of_live h.live
  have hne : k ≠ ⟨p.functions.size⟩ := by
    rintro rfl
    exact Nat.lt_irrefl _ hlt
  obtain ⟨h₁, h₂, h₃, h₄, h₅⟩ := h
  have hsame : (p.withCopy g constants).func k = p.func k := func_withCopy_old hlt
  rw [← hsame] at h₁ h₄ h₅
  refine ⟨h₁, (Layers.age_copied hne).trans h₂, ?_, h₄, h₅⟩
  rw [hheight, Layers.height_copied hne]
  exact h₃

section

variable {constants : List (Nat × Value)} {n : Nat} (h : Fitting γ U D p)

include h

theorem Fitting.bodies_withCopy (hf : (p.func f).erased = false) {b : BlockId}
    (hb : b ∈ (p.func f).blocks) :
    BodyFits (γ.copied ⟨p.functions.size⟩ g n) U D (p.withCopy g constants) f b := by
  have hbody := h.bodies f hf b hb
  have hne : f ≠ ⟨p.functions.size⟩ := by
    rintro rfl
    exact Nat.lt_irrefl _ (func_lt_of_live hf)
  have hstanding : (p.withCopy g constants).standing D b = p.standing D b := by
    unfold standing
    rw [block_withCopy_old (block_lt_of_parent (h.sound.mem_blocks.mp hb))]
  have hsame : ∀ i ∈ p.standing D b, (p.withCopy g constants).instr i = p.instr i := by
    intro i hi
    have hlive := h.sound.instr_live (mem_standing.mp hi).1
    exact instr_withCopy_old (instr_lt_of_live hlive)
  refine ⟨hstanding ▸ hbody.order.congr fun i hi => by rw [hsame i hi]; exact ⟨rfl, rfl⟩,
    fun i hi => ?_⟩
  rw [hstanding] at hi
  rw [hsame i hi]
  exact (hbody.fits i hi).same (fun c hc => parent_withCopy_old hc)
    (fun v _ hv => hv.withCopy h hf) fun k m _ hk => hk.withCopy (Layers.height_copied hne)

theorem Fitting.bodies_copy (hg : (p.func g).erased = false)
    (hD : ∀ d ∈ D, p.functionOf? d ≠ some g)
    (hconstants : ∀ c ∈ constants, ∃ bits value, c.2 = .int bits value) {b : BlockId}
    (hb : b ∈ (p.func g).blocks) :
    BodyFits (γ.copied ⟨p.functions.size⟩ g n) U D (p.withCopy g constants) ⟨p.functions.size⟩
      ((p.copyRenaming g constants).block b) := by
  have hp := h.sound
  have hbody := h.bodies g hg b hb
  have hin : ∀ i ∈ (p.block b).instrs, p.functionOf? i = some g := fun _ =>
    hp.functionOf_of_mem hb
  have hall : p.standing D b = (p.block b).instrs :=
    List.filter_eq_self.mpr fun i hi => by
      rw [decide_eq_true_eq]
      exact fun hmem => hD i hmem (hin i hi)
  have hstanding : (p.withCopy g constants).standing D ((p.copyRenaming g constants).block b) =
      (p.standing D b).map (p.copyRenaming g constants).instrId := by
    rw [hall, standing, block_withCopy_new hp g constants hb, copyBlock_instrs]
    refine List.filter_eq_self.mpr fun j hj => ?_
    obtain ⟨i, hi, rfl⟩ := List.mem_map.mp hj
    rw [decide_eq_true_eq]
    exact fun hmem => absurd (le_instrId_copy hp (hin i hi))
      (Nat.not_le.mpr (h.bounded _ (.inr hmem)))
  have hinstr : ∀ i ∈ p.standing D b,
      (p.withCopy g constants).instr ((p.copyRenaming g constants).instrId i) =
        (p.copyRenaming g constants).instr (p.instr i) := fun i hi =>
    instr_withCopy_new hp g constants (hp.mem_instrsOf.mpr (h.functionOf hb hi))
  constructor
  · rw [hstanding]
    refine hbody.order.map fun i hi => ?_
    rw [hinstr i hi]
    unfold Instr.isTerminator Instr.isPhi Renaming.instr
    cases (p.instr i).kind <;> exact ⟨rfl, rfl⟩
  · intro j hj
    rw [hstanding] at hj
    obtain ⟨i, hi, rfl⟩ := List.mem_map.mp hj
    rw [hinstr i hi]
    refine (hbody.fits i hi).map (φ := (p.copyRenaming g constants).value)
      (β := (p.copyRenaming g constants).block) (fun blocks hkind => ?_)
      (fun marker hkind => ?_) rfl
      (fun _ => rfl) (fun c hc => parent_withCopy_new hp hc) (fun v _ hv => hv.copy h hconstants)
      fun k m _ hk => hk.withCopy Layers.height_copied_self
    · unfold Renaming.instr Renaming.kind at hkind
      cases hsource : (p.instr i).kind <;> rw [hsource] at hkind <;> cases hkind
      exact ⟨_, rfl, rfl⟩
    · unfold Renaming.instr Renaming.kind
      rw [hkind]
      exact ⟨marker, rfl⟩

/-- A program fits with one more copy. -/
theorem Fitting.withCopy (hg : (p.func g).erased = false)
    (hD : ∀ d ∈ D, p.functionOf? d ≠ some g)
    (hconstants : ∀ c ∈ constants, ∃ bits value, c.2 = .int bits value) :
    Fitting (γ.copied ⟨p.functions.size⟩ g (p.functions.size + 1)) U D
      (p.withCopy g constants) := by
  obtain ⟨hq, hburies⟩ := evolves_withCopy p g constants h.sound
  have hsize : (p.withCopy g constants).functions.size = p.functions.size + 1 := by
    simp [Program.withCopy]
  refine ⟨hq, fun f n hn => ?_, fun i hi => Nat.lt_of_lt_of_le (h.bounded i hi) hburies.instrs,
    fun f hf b hb => ?_⟩
  · rw [hsize]
    by_cases hf : f = ⟨p.functions.size⟩
    · subst hf
      rw [Layers.age_copied_self, Option.some_inj] at hn
      refine ⟨Nat.lt_succ_self _, ?_⟩
      cases hage : γ.age g with
      | none =>
        rw [hage] at hn
        exact Nat.le_of_eq hn.symm
      | some m =>
        rw [hage] at hn
        have hle := (h.ages g m hage).2
        have hnm : m = n := hn
        omega
    · rw [Layers.age_copied hf] at hn
      obtain ⟨hlt, hle⟩ := h.ages f n hn
      exact ⟨by omega, by omega⟩
  · by_cases hnew : f = ⟨p.functions.size⟩
    · subst hnew
      rw [func_withCopy, if_pos rfl] at hb
      obtain ⟨c, hc, rfl⟩ := List.mem_map.mp hb
      exact h.bodies_copy hg hD hconstants hc
    · have hindex : f.index ≠ p.functions.size := fun he => hnew (by cases f; exact congrArg _ he)
      rw [func_withCopy, if_neg hindex] at hf hb
      exact h.bodies_withCopy hf hb

end

end Program

end QirProfile
