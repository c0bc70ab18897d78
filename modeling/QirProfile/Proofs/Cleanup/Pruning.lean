import QirProfile.Proofs.Transform.ResolvedPhis

/-!
# Programs from which instructions have gone

Simplifications take instructions away, one after the other. Each may turn the uses of the
instruction to a value first; what is left stands where it stood.
-/

namespace QirProfile

namespace Cleanup

open Program

variable {p q r : Program} {i j : InstrId} {v : Value}

/-! ## 1. What blocks list -/

theorem erased_dropInstr (hi : (p.instr i).erased = false) (j : InstrId) :
    ((p.dropInstr i).instr j).erased = true ↔ (p.instr j).erased = true ∨ j = i := by
  by_cases hij : i = j
  · subst hij
    simp [instr_dropInstr_self (instr_lt_of_live hi)]
  · simp [instr_dropInstr_ne hij, Ne.symm hij]

/-- `q` lists what `p` lists, without what is gone. What is left may read differently. -/
structure Pruned (p q : Program) : Prop where
  sound : q.Sound
  functions : q.functions = p.functions
  block : ∀ b, q.block b =
    { p.block b with instrs := (p.block b).instrs.filter fun i => !(q.instr i).erased }
  live : ∀ i, (q.instr i).erased = false → (p.instr i).erased = false

namespace Pruned

theorem refl (hp : p.Sound) : Pruned p p := by
  refine ⟨hp, rfl, fun b => ?_, fun _ h => h⟩
  have hall : (p.block b).instrs.filter (fun i => !(p.instr i).erased) = (p.block b).instrs :=
    List.filter_eq_self.mpr fun i hi => by rw [hp.instr_live hi]; rfl
  rw [hall]

theorem trans (h₁ : Pruned p q) (h₂ : Pruned q r) : Pruned p r := by
  refine ⟨h₂.sound, h₂.functions.trans h₁.functions, fun b => ?_, fun i hi =>
    h₁.live i (h₂.live i hi)⟩
  have hlisted : ((p.block b).instrs.filter fun i => !(q.instr i).erased).filter
      (fun i => !(r.instr i).erased) = (p.block b).instrs.filter fun i => !(r.instr i).erased := by
    rw [List.filter_filter]
    refine List.filter_congr fun i _ => ?_
    cases hi : (r.instr i).erased with
    | true => rfl
    | false => rw [h₂.live i hi]; rfl
  rw [h₂.block, h₁.block]
  dsimp only
  rw [hlisted]

theorem dropInstr (hp : p.Sound) (hi : (p.instr i).erased = false) : Pruned p (p.dropInstr i) := by
  have hgone := erased_dropInstr hi
  refine ⟨(evolves_dropInstr hi hp).1, ?_, fun b => ?_, fun j hj => ?_⟩
  · unfold Program.dropInstr
    split <;> rfl
  · have hlisted : ((p.dropInstr i).block b).instrs =
        (p.block b).instrs.filter fun j => !((p.dropInstr i).instr j).erased := by
      rw [instrs_dropInstr hp]
      refine List.filter_congr fun j hj => ?_
      rw [Bool.eq_iff_iff, bne_iff_ne, Bool.not_eq_true', ← Bool.not_eq_true, hgone,
        hp.instr_live hj]
      simp
    rw [← hlisted, block_dropInstr]
    split <;> rfl
  · exact Bool.eq_false_iff.mpr fun herased =>
      Bool.eq_false_iff.mp hj ((hgone j).mpr (.inl herased))

theorem func (h : Pruned p q) (f : FuncId) : q.func f = p.func f := by
  unfold Program.func
  rw [h.functions]

theorem liveFunctions (h : Pruned p q) : q.liveFunctions = p.liveFunctions := by
  unfold Program.liveFunctions
  simp only [h.functions, h.func]

theorem instrsOf (h : Pruned p q) (f : FuncId) :
    q.instrsOf f = (p.instrsOf f).filter fun i => !(q.instr i).erased := by
  unfold Program.instrsOf
  rw [h.func, List.filter_flatMap]
  exact List.flatMap_congr fun b _ => by rw [h.block]

theorem attachedInstrs_eq (h : Pruned p q) :
    attachedInstrs q = (attachedInstrs p).filter fun i => !(q.instr i).erased := by
  unfold attachedInstrs
  rw [h.liveFunctions, List.filter_flatMap]
  exact List.flatMap_congr fun f _ => h.instrsOf f

theorem mem_attachedInstrs (h : Pruned p q) :
    i ∈ attachedInstrs q ↔ i ∈ attachedInstrs p ∧ (q.instr i).erased = false := by
  rw [h.attachedInstrs_eq, List.mem_filter, Bool.not_eq_true']

theorem length_lt (h : Pruned p q) (hi : i ∈ attachedInstrs p) (hgone : (q.instr i).erased = true) :
    (attachedInstrs q).length < (attachedInstrs p).length := by
  rw [h.attachedInstrs_eq]
  exact List.length_filter_lt_length_iff_exists.mpr ⟨i, hi, by simp [hgone]⟩

end Pruned

/-! ## 2. An instruction gives way -/

theorem Pruned.replaceUses (hp : p.Sound) (old new : Value) : Pruned p (p.replaceUses old new) := by
  have hframe := sameFrame_replaceUses p old new
  have hsame : ∀ i, ((p.replaceUses old new).instr i).erased = (p.instr i).erased := fun i =>
    (hframe.instr i).2
  refine ⟨(hframe.evolves hp).1, rfl, fun b => ?_, fun i hi => hsame i ▸ hi⟩
  simp only [hsame]
  exact (Pruned.refl hp).block b

/-- An instruction can give way to a value. -/
theorem Pruned.giveWay (hp : p.Sound) (hi : (p.instr i).erased = false) (v : Value) :
    Pruned p ((p.replaceUses (.instr i) v).dropInstr i) := by
  have hreplaced := Pruned.replaceUses hp (.instr i) v
  exact hreplaced.trans
    (.dropInstr hreplaced.sound (((sameFrame_replaceUses p (.instr i) v).instr i).2.trans hi))

end Cleanup

namespace Transform

open Program

variable {p q : Program} {id i : InstrId} {v : Value}

theorem gaveWay_drop (hp : p.Sound) (hlive : (p.instr id).erased = false) :
    GaveWay p id v ((p.replaceUses (.instr id) v).dropInstr id) := by
  have hframe := sameFrame_replaceUses p (.instr id) v
  have hsound := (hframe.evolves hp).1
  have hlive' := (hframe.instr id).2.trans hlive
  refine
    { sound := (evolves_dropInstr hlive' hsound).1
      erased := fun i => ?_
      operands := fun i hi => ?_
      initializers := fun g => by rw [global_dropInstr, initializer_exchanged]
      kinds := fun i => ?_
      func := fun f => by rw [func_dropInstr, func_replaceUses]
      blocks := fun b => by rw [instrs_dropInstr hsound, (hframe.block b).2.1] }
  · by_cases hi : id = i
    · subst hi
      simp [instr_dropInstr_self (instr_lt_of_live hlive')]
    · rw [instr_dropInstr_ne hi, (hframe.instr i).2]
      simp [Ne.symm hi]
  · have hne : id ≠ i := by
      rintro rfl
      rw [instr_dropInstr_self (instr_lt_of_live hlive')] at hi
      cases hi
    rw [instr_dropInstr_ne hne] at hi ⊢
    exact operands_exchanged ((hframe.instr i).2.symm.trans hi)
  · obtain ⟨hkind, hty, -⟩ := same_dropInstr (p.replaceUses (.instr id) v) id i
    rw [hkind, hty, kind_replaceUses, instr_replaceUses]
    refine ⟨rfl, ?_⟩
    split <;> rfl

theorem GaveWay.live (h : GaveWay p id v q) (hi : (q.instr i).erased = false) :
    (p.instr i).erased = false :=
  Bool.eq_false_iff.mpr fun hgone => Bool.eq_false_iff.mp hi ((h.erased i).mpr (.inl hgone))

theorem FlatConstants.giveWay (h : FlatConstants p) (hgone : GaveWay p id v q) (hv : v.Flat) :
    FlatConstants q := by
  have hflat : ∀ {u : Value}, u.Flat → (Value.substitute (.instr id) v u).Flat := by
    intro u hu
    rw [hu.substitute rfl]
    split
    · exact hv
    · exact hu
  refine ⟨fun i hi u hu => ?_, fun g u hu => ?_⟩
  · rw [hgone.operands i hi] at hu
    obtain ⟨w, hw, rfl⟩ := List.mem_map.mp hu
    exact hflat (h.operands i (hgone.live hi) w hw)
  · rw [hgone.initializers g] at hu
    obtain ⟨w, hw, rfl⟩ := Option.map_eq_some_iff.mp hu
    exact hflat (h.initializers g w hw)

end Transform

end QirProfile
