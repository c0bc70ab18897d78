import QirProfile.Proofs.Program.Linked

/-!
# Neat programs

A program in which nothing refers to what is gone and every block is in order, once some instructions
are left out of account. With nothing left out this is what `Verified` asks. While terminators are
replaced, the old ones still stand in their blocks, and it is they that are left out.

Operands are flat besides: no constant has a part of a function inside. So an instruction gives way to
a value as a whole, or not at all.
-/

namespace QirProfile

namespace Program

variable {p q : Program} {D D' : List InstrId} {f : FuncId} {id : InstrId}

/-- The operands of live functions have no part of a function inside. -/
def FlatOperands (p : Program) : Prop :=
  ∀ f i, (p.func f).erased = false → p.functionOf? i = some f → ∀ v ∈ (p.instr i).operands, v.Flat

/-- What instructions refer to is there, and blocks are in order without the instructions of `D`. -/
structure Neat (D : List InstrId) (p : Program) : Prop where
  linked : Linked noGuests p
  flat : p.FlatOperands
  bounded : ∀ i ∈ D, i.index < p.instrs.size
  order : ∀ f, (p.func f).erased = false → ∀ b ∈ (p.func f).blocks, p.Ordered (p.standing D b)

theorem Neat.sound (h : Neat D p) : p.Sound := h.linked.sound

theorem standing_nil (b : BlockId) : p.standing [] b = (p.block b).instrs :=
  List.filter_eq_self.mpr fun _ _ => rfl

theorem Verified.neat (hp : p.Sound) (hv : p.Verified) (hflat : p.FlatOperands) : Neat [] p where
  linked := hv.linked hp
  flat := hflat
  bounded := nofun
  order f hf b hb := by
    rw [standing_nil]
    exact hv.inOrder f hf b hb

/-- A neat program with nothing left out is verified. -/
theorem Neat.verified (h : Neat [] p) : p.Verified := by
  refine h.linked.verified fun f hf b hb => ?_
  have horder := h.order f hf b hb
  rwa [standing_nil] at horder

theorem Neat.congr (h : Neat D p) (hD : ∀ i, i ∈ D' ↔ i ∈ D) : Neat D' p where
  linked := h.linked
  flat := h.flat
  bounded i hi := h.bounded i ((hD i).mp hi)
  order f hf b hb := by
    have hsame : p.standing D' b = p.standing D b := List.filter_congr fun i _ => by simp [hD]
    rw [hsame]
    exact h.order f hf b hb

/-! ## 1. Changes of instructions where they stand -/

theorem Neat.rework (h : Neat D p) (hs : p.SameFrame q) (hfunc : ∀ f, q.func f = p.func f)
    (hshape : ∀ i, (q.instr i).isTerminator = (p.instr i).isTerminator ∧
      (q.instr i).isPhi = (p.instr i).isPhi)
    (hlinked : Linked noGuests q)
    (hflat : ∀ f i, (p.func f).erased = false → p.functionOf? i = some f →
      ∀ v ∈ (q.instr i).operands, v.Flat) : Neat D q where
  linked := hlinked
  flat f i hf hi := by
    rw [hfunc] at hf
    rw [(hs.places hfunc).functionOf] at hi
    exact hflat f i hf hi
  bounded i hi := hs.instrs ▸ h.bounded i hi
  order f hf b hb := by
    rw [hfunc] at hf hb
    have hstanding : q.standing D b = p.standing D b := by
      unfold standing
      rw [(hs.block b).2.1]
    rw [hstanding]
    exact (h.order f hf b hb).congr fun i _ => hshape i

theorem Neat.replaceUses {v : Value} (h : Neat D p) (hflat : v.Flat)
    (hv : ∀ f, (p.func f).erased = false → p.functionOf? id = some f → Refers noGuests p f v) :
    Neat D (p.replaceUses (.instr id) v) := by
  refine h.rework (sameFrame_replaceUses p (.instr id) v) (fun _ => rfl) (fun i => ?_)
    (h.linked.replaceUses fun f hf hid => hv f hf (hid.resolve_right not_false))
    fun f i hf hi w hw => ?_
  · unfold Instr.isTerminator Instr.isPhi
    rw [kind_replaceUses]
    exact ⟨rfl, rfl⟩
  · rw [operands_replaceUses (h.flat f i hf hi) (h.sound.live_of_functionOf hi)] at hw
    obtain ⟨u, hu, rfl⟩ := List.mem_map.mp hw
    split
    · exact hflat
    · exact h.flat f i hf hi u hu

theorem Neat.takeName (h : Neat D p) (source target : InstrId) :
    Neat D (p.takeName source target) := by
  refine h.rework (sameFrame_takeName p source target) (fun _ => rfl) (fun i => ?_)
    (h.linked.takeName source target) fun f i hf hi => ?_
  all_goals
    obtain ⟨name, hname⟩ := instr_takeName p source target i
    rw [hname]
  · exact ⟨rfl, rfl⟩
  · exact h.flat f i hf hi

theorem Neat.forgetEntry (h : Neat D p) (id : InstrId) (source : BlockId) :
    Neat D (p.updateInstr id (Program.forgetEntry · source)) := by
  have hs := sameFrame_updateInstr (g := (Program.forgetEntry · source))
    (fun i => ⟨(forgetEntry_same i source).1, (forgetEntry_same i source).2.1⟩) p id
  refine h.rework hs (fun _ => rfl) (fun i => ?_) (h.linked.forgetEntry id source)
    fun f i hf hi v hv => ?_
  · rw [instr_updateInstr]
    split
    · exact ⟨isTerminator_forgetEntry .., (forgetEntry_same _ source).2.2.1⟩
    · exact ⟨rfl, rfl⟩
  · rw [instr_updateInstr] at hv
    split at hv
    · exact h.flat f i hf hi v ((forgetEntry_same _ source).2.2.2 hv)
    · exact h.flat f i hf hi v hv

theorem Neat.cutEdge {b source : BlockId} (h : Neat D p) (hq : p.cutEdge b source = .ok q) :
    Neat D q := by
  let R (p q : Program) : Prop := Neat D p → Neat D q
  have : IsPreorder Program R :=
    { refl := fun _ h => h
      trans := fun _ _ _ h₁ h₂ h => h₂ (h₁ h) }
  exact cutEdge_keeps (R := R) (fun p id h => h.forgetEntry id source) hq h

/-! ## 2. What is new -/

namespace Inserted

variable {d : Edit.Draft} {anchor new : InstrId} {b : BlockId} {front back : List InstrId}
  (hins : Inserted p q d anchor new b front back)

include hins

theorem anchored_in : p.functionOf? anchor = (p.block b).parent := by
  rw [functionOf?, hins.anchored]
  rfl

theorem stood {i : InstrId} (hi : q.functionOf? i = some f) :
    p.functionOf? i = some f ∧ q.instr i = p.instr i ∨ i = new ∧ p.functionOf? anchor = some f := by
  by_cases hne : i = new
  · refine .inr ⟨hne, ?_⟩
    obtain ⟨name, hmade⟩ := hins.made
    rw [hne, functionOf?, hmade] at hi
    exact hins.anchored_in.trans ((hins.parent b).symm.trans hi)
  · rw [hins.functionOf hne] at hi
    exact .inl ⟨hi, hins.instr i hne⟩

theorem linked (h : Linked noGuests p) (hphi : d.instr.isPhi = false)
    (hd : d.operands ⊆ (p.instr anchor).operands) : Linked noGuests q := by
  have hplace : ∀ i f, p.functionOf? i = some f → q.functionOf? i = some f := fun i f hi => by
    rwa [hins.functionOf (hins.ne_new (instr_lt_of_live (h.sound.live_of_functionOf hi)))]
  have hblock : ∀ c f, (p.block c).parent = some f → (q.block c).parent = some f := fun c f hc =>
    (hins.parent c).trans hc
  have hfunc : ∀ k, (p.func k).erased = false → (q.func k).erased = false := fun k hk => by
    rwa [hins.func]
  refine h.grow (hins.evolves h.sound).1 (fun i f hi => hi.imp (hplace i f) id) hblock hfunc
    fun f i hf hi => ?_
  rw [hins.func] at hf
  rcases hins.stood hi with ⟨hold, hsame⟩ | ⟨rfl, hin⟩
  · exact .inl ⟨hf, hold, by rw [hsame], by rw [hsame]⟩
  · obtain ⟨name, hmade⟩ := hins.made
    rw [hmade]
    refine .inr ⟨hphi, fun v hv => ?_⟩
    exact (h.operands f anchor hf hin v (hd hv)).transport v
      (fun j _ hj => hj.imp (hplace j f) id) (fun c _ => hblock c f) fun k _ => hfunc k

theorem flatOperands (h : p.FlatOperands) (hd : d.operands ⊆ (p.instr anchor).operands) :
    q.FlatOperands := by
  intro f i hf hi v hv
  rw [hins.func] at hf
  rcases hins.stood hi with ⟨hold, hsame⟩ | ⟨rfl, hin⟩
  · rw [hsame] at hv
    exact h f i hf hold v hv
  · obtain ⟨name, hmade⟩ := hins.made
    rw [hmade] at hv
    exact h f anchor hf hin v (hd hv)

theorem bounded_after (h : Neat D p) : ∀ i ∈ D, i.index < q.instrs.size := by
  intro i hi
  rw [hins.instrs]
  exact Nat.lt_succ_of_lt (h.bounded i hi)

theorem neat (h : Neat D p) (hanchor : anchor ∉ D) (hphi : (p.instr anchor).isPhi = false)
    (hnewTerm : d.instr.isTerminator = false) (hnewPhi : d.instr.isPhi = false)
    (hd : d.operands ⊆ (p.instr anchor).operands) : Neat D q := by
  refine ⟨hins.linked h.linked hnewPhi hd, hins.flatOperands h.flat hd, hins.bounded_after h,
    fun f hf c hc => ?_⟩
  rw [hins.func] at hf hc
  have horder := h.order f hf c hc
  by_cases hcb : c = b
  · subst hcb
    exact hins.ordered h.sound (hins.not_mem_of_bounded h.bounded) hanchor hphi hnewTerm hnewPhi
      horder
  · exact hins.ordered_of_ne h.sound hcb (fun _ _ => Iff.rfl) horder

theorem neat_terminator (h : Neat D p) (hanchor : anchor ∉ D)
    (hterm : (p.instr anchor).isTerminator = true) (hnewTerm : d.instr.isTerminator = true)
    (hnewPhi : d.instr.isPhi = false) (hd : d.operands ⊆ (p.instr anchor).operands) :
    Neat (anchor :: D) q := by
  refine ⟨hins.linked h.linked hnewPhi hd, hins.flatOperands h.flat hd, fun i hi => ?_,
    fun f hf c hc => ?_⟩
  · rcases List.mem_cons.mp hi with rfl | hi
    · rw [hins.instrs]
      exact Nat.lt_succ_of_lt (instr_lt_of_parent hins.anchored)
    · exact hins.bounded_after h i hi
  rw [hins.func] at hf hc
  have horder := h.order f hf c hc
  by_cases hcb : c = b
  · subst hcb
    exact hins.ordered_terminator h.sound (hins.not_mem_of_bounded h.bounded) hanchor hterm hnewTerm
      hnewPhi horder
  · exact hins.ordered_of_ne h.sound hcb (hins.mem_cons_anchor h.sound hcb) horder

end Inserted

/-! ## 3. What goes -/

theorem Neat.ignore (h : Neat D p) (hid : id.index < p.instrs.size)
    (hterm : (p.instr id).isTerminator = false) : Neat (id :: D) p := by
  refine ⟨h.linked, h.flat, fun i hi => ?_, fun f hf b hb => (h.order f hf b hb).ignore hterm⟩
  rcases List.mem_cons.mp hi with rfl | hi
  · exact hid
  · exact h.bounded i hi

theorem Neat.forget (h : Neat (id :: D) p) (hgone : (p.instr id).erased = true) : Neat D p := by
  refine ⟨h.linked, h.flat, fun i hi => h.bounded i (List.mem_cons_of_mem _ hi),
    fun f hf b hb => ?_⟩
  rw [standing_forget h.sound (List.subset_cons_self id D) (fun i hi hnot => ?_) b]
  · exact h.order f hf b hb
  · obtain rfl := (List.mem_cons.mp hi).resolve_right hnot
    exact hgone

theorem Neat.dropInstr (h : Neat (id :: D) p) (hlive : (p.instr id).erased = false)
    (hunused : p.Unused (.instr id)) : Neat D (p.dropInstr id) := by
  have hlt := instr_lt_of_live hlive
  have hmem : id ∈ id :: D := List.mem_cons_self
  have hwithout : Neat (id :: D) (p.dropInstr id) := by
    refine ⟨h.linked.dropInstr hlive hunused, fun f i hf hi v hv => ?_, fun i hi => ?_,
      fun f hf b hb => ?_⟩
    · have hne : id ≠ i := by
        rintro rfl
        rw [not_functionOf_dropInstr hlt] at hi
        cases hi
      rw [func_dropInstr] at hf
      rw [functionOf_dropInstr hne] at hi
      rw [instr_dropInstr_ne hne] at hv
      exact h.flat f i hf hi v hv
    · rw [(sizes_dropInstr p id).2.2]
      exact h.bounded i hi
    · rw [func_dropInstr] at hf hb
      obtain ⟨hstanding, hsame⟩ := standing_dropInstr (p := p) hmem b
      rw [hstanding]
      exact (h.order f hf b hb).congr fun i hi => by rw [hsame i hi]; exact ⟨rfl, rfl⟩
  refine hwithout.forget ?_
  rw [instr_dropInstr_self hlt]

theorem Neat.giveWay {v : Value} (h : Neat [] p) (hlive : (p.instr id).erased = false)
    (hterm : (p.instr id).isTerminator = false) (hv : v.Flat) (hne : v ≠ .instr id)
    (hrefers : ∀ f, (p.func f).erased = false → p.functionOf? id = some f →
      Refers noGuests p f v) : Neat [] ((p.replaceUses (.instr id) v).dropInstr id) := by
  have hlive' := ((sameFrame_replaceUses p (.instr id) v).instr id).2.trans hlive
  have hunused : (p.replaceUses (.instr id) v).Unused (.instr id) := by
    refine unused_replaceUses h.sound rfl (Bool.eq_false_iff.mpr fun hmentions => ?_)
    exact hne (hv (.instr id) rfl hmentions).symm
  refine ((h.replaceUses hv hrefers).ignore (instr_lt_of_live hlive') ?_).dropInstr hlive' hunused
  rwa [Instr.isTerminator, kind_replaceUses]

/-- An instruction that was left out can go. -/
theorem Neat.deleteInstr (h : Neat (id :: D) p) (hq : p.deleteInstr id = .ok q) : Neat D q := by
  unfold Program.deleteInstr at hq
  dsimp only at hq
  obtain ⟨hlive, rfl⟩ := eraseInstr_ok.mp hq
  by_cases huses : p.hasUses (.instr id) = true
  · rw [if_pos huses] at hlive ⊢
    refine (h.replaceUses (Value.flat_undef _) fun _ _ _ => trivial).dropInstr hlive ?_
    exact unused_replaceUses h.sound rfl (by simp [Value.mentions])
  · rw [if_neg huses] at hlive ⊢
    exact h.dropInstr hlive (unused_of_hasUses h.sound (Bool.eq_false_iff.mpr huses))

end Program

end QirProfile
