import QirProfile.Proofs.Program.Readings

/-!
# Blocks that are closed

A block is closed if one of its instructions ends it: a terminator, and where that is an invoke, one
that says where control goes on. A closed block is not empty.
-/

namespace QirProfile

variable {i : Instr} {b : BlockId} {id anchor new : InstrId} {d : Edit.Draft}
  {front back : List InstrId}

/-! ## 1. Instructions that end blocks -/

/-- The instruction ends a block, and if it is an invoke, it has its two destinations. -/
structure Instr.Closes (i : Instr) : Prop where
  ends : i.isTerminator = true
  destinations : i.kind = .invoke → i.invokeDestinations?.isSome = true

theorem Instr.Closes.map {j : Instr} {g : Value → Value} (h : i.Closes) (hkind : j.kind = i.kind)
    (hoperands : j.operands = i.operands.map g) (hg : ∀ b, ∃ c, g (.block b) = .block c) :
    j.Closes where
  ends := by
    rw [isTerminator, hkind]
    exact h.ends
  destinations hinvoke :=
    invokeDestinations?_renamed hkind hoperands hg (h.destinations (hkind.symm.trans hinvoke))

theorem Instr.isTerminator_of_isPhi (h : i.isPhi = true) : i.isTerminator = false := by
  obtain ⟨blocks, hkind⟩ := isPhi_iff.mp h
  rw [isTerminator, hkind]
  rfl

theorem Instr.isTerminator_of_isCall (h : i.isCall = true) : i.isTerminator = false := by
  unfold isCall at h
  split at h
  · rename_i marker hkind
    rw [isTerminator, hkind]
    rfl
  · cases h

theorem Instr.invokeDestinations?_of_few {vs : List Value} {w : Value}
    (hinvoke : i.kind = .invoke) (hoperands : i.operands = vs ++ [w])
    (hvs : vs.length ≤ 1 ∨ vs.length = 2 ∧ ∃ v ∈ vs, v.toBlock? = none) :
    i.invokeDestinations? = none := by
  rw [invokeDestinations?_eq hinvoke, hoperands]
  match vs with
  | [] => rfl
  | [_] => rfl
  | [v₁, v₂] =>
    obtain ⟨-, v, hv, hblock⟩ := hvs.resolve_left (by simp)
    change (v₁.toBlock?.bind fun normal => v₂.toBlock?.map fun unwind => (normal, unwind)) = none
    rcases List.mem_pair.mp hv with rfl | rfl
    · rw [hblock, Option.bind_none]
    · simp [hblock]
  | _ :: _ :: _ :: _ => simp at hvs

theorem Value.substitute_block {old : Value} (new : Value) (h : old ≠ .block b) :
    Value.substitute old new (.block b) = .block b := by
  rw [Value.substitute, if_neg h.symm]
  all_goals exact nofun

namespace Program

variable {p q r : Program}

/-- An instruction of the program that closes a block. -/
structure Closing (p : Program) (t : InstrId) : Prop where
  made : t.index < p.instrs.size
  closes : (p.instr t).Closes

/-- One of the block's instructions closes it. -/
def Closed (p : Program) (b : BlockId) : Prop :=
  ∃ t ∈ (p.block b).instrs, p.Closing t

/-- If the instruction is a live invoke, it says where control goes on. -/
def Directed (p : Program) (id : InstrId) : Prop :=
  (p.instr id).erased = false → (p.instr id).kind = .invoke →
    (p.instr id).invokeDestinations?.isSome = true

theorem instr_lt_of_plain {i : InstrId} (h : (p.instr i).isTerminator = false) :
    i.index < p.instrs.size := by
  by_contra hge
  rw [instr_of_le (Nat.not_lt.mp hge)] at h
  cases h

theorem Closing.ne_plain {t i : InstrId} (ht : p.Closing t) (hi : (p.instr i).isTerminator = false) :
    t ≠ i := by
  rintro rfl
  rw [ht.closes.ends] at hi
  cases hi

theorem Verified.closed {f : FuncId} (hp : p.Sound) (hv : p.Verified)
    (hinvokes : ∀ i, (p.instr i).erased = false → (p.instr i).kind = .invoke →
      (p.instr i).invokeDestinations?.isSome = true)
    (hf : (p.func f).erased = false) (hb : b ∈ (p.func f).blocks) : p.Closed b := by
  obtain ⟨t, hlast, hends⟩ := (hv f hf b hb).ends
  have ht := List.mem_of_getLast? hlast
  have hlive := hp.instr_live ht
  exact ⟨t, ht, instr_lt_of_live hlive, hends, hinvokes t hlive⟩

/-! ## 2. What ends blocks goes on doing so -/

/-- What ends no block still ends none, and what closes blocks still does. -/
structure SameEnds (p q : Program) : Prop where
  plain : ∀ i, (p.instr i).isTerminator = false → (q.instr i).isTerminator = false
  closing : ∀ t, p.Closing t → q.Closing t

instance : IsPreorder Program SameEnds where
  refl _ := ⟨fun _ h => h, fun _ h => h⟩
  trans _ _ _ h₁ h₂ := ⟨fun i hi => h₂.plain i (h₁.plain i hi), fun t ht => h₂.closing t (h₁.closing t ht)⟩

theorem SameEnds.of_instrs (hsize : p.instrs.size ≤ q.instrs.size)
    (h : ∀ i : InstrId, i.index < p.instrs.size →
      ((q.instr i).kind = (p.instr i).kind ∧ ∃ g : Value → Value, (∀ b, ∃ c, g (.block b) = .block c) ∧
        (q.instr i).operands = (p.instr i).operands.map g) ∨
      (p.instr i).isTerminator = false ∧ (q.instr i).isTerminator = false) : SameEnds p q where
  plain i hi := by
    rcases h i (instr_lt_of_plain hi) with ⟨hkind, -⟩ | ⟨-, hplain⟩
    · rw [Instr.isTerminator, hkind]
      exact hi
    · exact hplain
  closing t ht := by
    refine ⟨Nat.lt_of_lt_of_le ht.made hsize, ?_⟩
    rcases h t ht.made with ⟨hkind, g, hg, hoperands⟩ | ⟨hplain, -⟩
    · exact ht.closes.map hkind hoperands hg
    · exact absurd rfl (ht.ne_plain hplain)

theorem SameEnds.of_same (hsize : p.instrs.size ≤ q.instrs.size)
    (h : ∀ i : InstrId, i.index < p.instrs.size →
      (q.instr i).kind = (p.instr i).kind ∧ (q.instr i).operands = (p.instr i).operands) :
    SameEnds p q :=
  .of_instrs hsize fun i hi => .inl ⟨(h i hi).1, id, fun b => ⟨b, rfl⟩,
    (h i hi).2.trans (List.map_id _).symm⟩

theorem sameEnds_replaceUses {old : Value} (hold : old.toBlock? = none) (new : Value) :
    SameEnds p (p.replaceUses old new) := by
  refine .of_instrs (Nat.le_of_eq (Array.size_map ..).symm) fun i _ => .inl ⟨kind_replaceUses .., ?_⟩
  rw [instr_replaceUses]
  split
  · refine ⟨_, fun b => ⟨b, Value.substitute_block new ?_⟩, rfl⟩
    rintro rfl
    cases hold
  · exact ⟨id, fun b => ⟨b, rfl⟩, (List.map_id _).symm⟩

theorem sameEnds_takeName (source target : InstrId) : SameEnds p (p.takeName source target) := by
  refine .of_same (Nat.le_of_eq ?_) fun i _ => ?_
  · simp [takeName, setInstrName, updateInstr]
  · obtain ⟨name, hname⟩ := instr_takeName p source target i
    rw [hname]
    exact ⟨rfl, rfl⟩

theorem sameEnds_setKind {marker : TailMarker} (hcall : (p.instr id).isCall = true)
    (h : p.setKind id (.call marker) = .ok q) : SameEnds p q := by
  obtain ⟨_, -, h⟩ := except_bind_ok.mp h
  cases h
  refine .of_instrs (Nat.le_of_eq Array.size_modify.symm) fun i _ => ?_
  rw [instr_updateInstr]
  split
  · rename_i hi
    obtain ⟨rfl, -⟩ := hi
    exact .inr ⟨Instr.isTerminator_of_isCall hcall, rfl⟩
  · exact .inl ⟨rfl, _, fun b => ⟨b, rfl⟩, (List.map_id _).symm⟩

theorem sameEnds_forgetEntry (p : Program) (id : InstrId) (source : BlockId) :
    SameEnds p (p.updateInstr id (forgetEntry · source)) := by
  refine .of_instrs (Nat.le_of_eq Array.size_modify.symm) fun i _ => ?_
  rw [instr_updateInstr]
  split
  · cases hphi : (p.instr i).isPhi with
    | false =>
      rw [forgetEntry_plain hphi]
      exact .inl ⟨rfl, _, fun b => ⟨b, rfl⟩, (List.map_id _).symm⟩
    | true =>
      refine .inr ⟨Instr.isTerminator_of_isPhi hphi, Instr.isTerminator_of_isPhi ?_⟩
      rw [← hphi]
      exact (forgetEntry_same (p.instr i) source).2.2.1
  · exact .inl ⟨rfl, _, fun b => ⟨b, rfl⟩, (List.map_id _).symm⟩

theorem sameEnds_dropInstr (p : Program) (id : InstrId) : SameEnds p (p.dropInstr id) := by
  refine .of_same (Nat.le_of_eq ?_) fun i _ => ?_
  · unfold dropInstr
    split <;> exact Array.size_modify.symm
  · obtain ⟨hkind, -, hoperands⟩ := same_dropInstr p id i
    exact ⟨hkind, hoperands⟩

theorem sameEnds_dropBlock (p : Program) (b : BlockId) : SameEnds p (p.dropBlock b) := by
  refine .of_same (Nat.le_of_eq (sizes_dropBlock p b).2.2.symm) fun i _ => ?_
  rw [instr_dropBlock]
  split <;> exact ⟨rfl, rfl⟩

theorem sameEnds_dropFunction (p : Program) (g : FuncId) : SameEnds p (p.dropFunction g) := by
  refine .of_same (Nat.le_of_eq (sizes_dropBlocks p _).2.symm) fun i _ => ?_
  obtain ⟨_, _, he⟩ := same_dropFunction p g i
  rw [he]
  exact ⟨rfl, rfl⟩

theorem sameEnds_withCopy (source : FuncId) (constants : List (Nat × Value)) :
    SameEnds p (p.withCopy source constants) :=
  .of_same (by simp [withCopy]) fun i hi => by
    rw [instr_withCopy_old hi]
    exact ⟨rfl, rfl⟩

theorem Inserted.sameEnds (h : Inserted p q d anchor new b front back) : SameEnds p q :=
  .of_same (by rw [h.instrs]; exact Nat.le_succ _) fun i hi => by
    rw [h.instr i (h.ne_new hi)]
    exact ⟨rfl, rfl⟩

/-! ## 3. Closed blocks stay closed -/

/-- What ends blocks goes on doing so, and no closed block is opened. -/
structure KeepsClosed (p q : Program) : Prop where
  ends : SameEnds p q
  closed : ∀ b, p.Closed b → q.Closed b

instance : IsPreorder Program KeepsClosed where
  refl p := ⟨refl_of SameEnds p, fun _ h => h⟩
  trans _ _ _ h₁ h₂ := ⟨trans_of SameEnds h₁.ends h₂.ends, fun b hb => h₂.closed b (h₁.closed b hb)⟩

theorem SameEnds.keepsClosed (h : SameEnds p q) (hblock : ∀ b, (p.block b).instrs ⊆ (q.block b).instrs) :
    KeepsClosed p q :=
  ⟨h, fun b ⟨t, ht, hclosing⟩ => ⟨t, hblock b ht, h.closing t hclosing⟩⟩

theorem Inserted.subset (h : Inserted p q d anchor new b front back) (c : BlockId) :
    (p.block c).instrs ⊆ (q.block c).instrs := by
  by_cases hc : c = b
  · subst hc
    rw [h.before, h.after]
    exact List.append_subset.mpr ⟨List.subset_append_left _ _,
      List.subset_append_of_subset_right _ (List.subset_cons_self _ _)⟩
  · rw [h.others c hc]
    exact List.Subset.refl _

theorem Inserted.keepsClosed (h : Inserted p q d anchor new b front back) : KeepsClosed p q :=
  h.sameEnds.keepsClosed h.subset

theorem mem_dropInstr {i : InstrId} (hi : i ∈ (p.block b).instrs) (hne : i ≠ id) :
    i ∈ ((p.dropInstr id).block b).instrs := by
  rw [block_dropInstr]
  split
  · exact List.mem_filter.mpr ⟨hi, bne_iff_ne.mpr hne⟩
  · exact hi

theorem keepsClosed_dropInstr (h : (p.instr id).isTerminator = false) :
    KeepsClosed p (p.dropInstr id) :=
  ⟨sameEnds_dropInstr p id, fun _ ⟨t, ht, hclosing⟩ =>
    ⟨t, mem_dropInstr ht (hclosing.ne_plain h), (sameEnds_dropInstr p id).closing t hclosing⟩⟩

theorem keepsClosed_eraseInstr (hplain : (p.instr id).isTerminator = false)
    (h : p.eraseInstr id = .ok q) : KeepsClosed p q := by
  obtain ⟨-, rfl⟩ := eraseInstr_ok.mp h
  exact keepsClosed_dropInstr hplain

/-! ## 4. New ends of blocks -/

/-- Nothing has gone, and where the instruction stands, a new one closes the block. -/
structure Relieves (id : InstrId) (p q : Program) : Prop where
  listed : ∀ b, (p.block b).instrs ⊆ (q.block b).instrs
  relief : ∀ b, (p.instr id).parent = some b →
    ∃ t ∈ (q.block b).instrs, p.instrs.size ≤ t.index ∧ q.Closing t

variable {id : InstrId}

theorem Inserted.relieves
    (h : Inserted p q d id new b front back) (hd : d.kind = .br) : Relieves id p q where
  listed := h.subset
  relief c hc := by
    obtain rfl := Option.some.inj (h.anchored.symm.trans hc)
    obtain ⟨name, hmade⟩ := h.made
    refine ⟨new, ?_, Nat.le_of_eq (congrArg InstrId.index h.fresh).symm, ?_, ?_, ?_⟩
    · rw [h.after]
      exact List.mem_append_right _ List.mem_cons_self
    · rw [h.fresh, h.instrs]
      exact Nat.lt_succ_self _
    · rw [hmade, Instr.isTerminator, hd]
      rfl
    · rw [hmade, hd]
      exact InstrKind.noConfusion

theorem Relieves.followed (h : Relieves id p q) (hends : SameEnds q r)
    (hblock : ∀ b, (r.block b).instrs = (q.block b).instrs) : Relieves id p r where
  listed b := by
    rw [hblock]
    exact h.listed b
  relief b hb := by
    obtain ⟨t, ht, hnew, hclosing⟩ := h.relief b hb
    exact ⟨t, (hblock b).symm ▸ ht, hnew, hends.closing t hclosing⟩

theorem Inserted.before_relief (h : Inserted p q d id new b front back) (hr : Relieves id q r)
    (hid : id.index < p.instrs.size) : Relieves id p r where
  listed c := List.Subset.trans (h.subset c) (hr.listed c)
  relief c hc := by
    rw [← h.instr id (h.ne_new hid)] at hc
    obtain ⟨t, ht, hnew, hclosing⟩ := hr.relief c hc
    refine ⟨t, ht, Nat.le_trans ?_ hnew, hclosing⟩
    rw [h.instrs]
    exact Nat.le_succ _

end Program

end QirProfile
