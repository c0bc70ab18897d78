import Mathlib.Logic.Relation
import QirProfile.Proofs.Program.Linked
import QirProfile.Proofs.Transform.DeadCode

/-!
# Deletion of dead code keeps a program verified

Dead code is taken away in separate loops: phis with a dead edge give way to values, dead functions
go, the phis at the ends of dead edges forget them, dead blocks are emptied, and those that nothing
refers to are erased. The loops agree as long as control never goes from an active block to a dead
one; a dead block that is still referred to stays behind empty.
-/

namespace QirProfile

variable {v w : Value} {f : FuncId} {b c d : BlockId} {cs : List BlockId} {u : PUnit}
  {i phi : InstrId} {done rest : List (InstrId × Value)} {p₀ p₁ : Program}

/-! ## 1. Where control goes -/

namespace Program

variable {p q r : Program}

/-- Control goes where it went, and phis come from where they came from, at most. -/
structure SameRoutes (p q : Program) : Prop where
  successors : ∀ i, (q.instr i).successors = (p.instr i).successors
  incoming : ∀ i, (q.instr i).phiBlocks ⊆ (p.instr i).phiBlocks

theorem SameRoutes.refl (p : Program) : p.SameRoutes p :=
  ⟨fun _ => rfl, fun _ => List.Subset.refl _⟩

theorem SameRoutes.trans (h₁ : p.SameRoutes q) (h₂ : q.SameRoutes r) : p.SameRoutes r where
  successors i := (h₂.successors i).trans (h₁.successors i)
  incoming i := List.Subset.trans (h₂.incoming i) (h₁.incoming i)

theorem sameRoutes_of_same (h : ∀ i, (q.instr i).kind = (p.instr i).kind ∧
    (q.instr i).operands = (p.instr i).operands) : p.SameRoutes q := by
  refine ⟨fun i => ?_, fun i => ?_⟩
  · unfold Instr.successors Instr.invokeDestinations?
    rw [(h i).1, (h i).2]
  · rw [Instr.phiBlocks, (h i).1]
    exact List.Subset.refl _

theorem sameRoutes_replaceUses {old new : Value} (hold : old.toBlock? = none)
    (hnew : new.toBlock? = none) (p : Program) : p.SameRoutes (p.replaceUses old new) := by
  refine ⟨fun i => ?_, fun i => ?_⟩
  · rw [instr_replaceUses]
    split
    · exact Instr.successors_map rfl rfl (Value.toBlock?_substitute hold hnew)
    · rfl
  · rw [Instr.phiBlocks, kind_replaceUses]
    exact List.Subset.refl _

theorem sameRoutes_takeName (p : Program) (source target : InstrId) :
    p.SameRoutes (p.takeName source target) := by
  refine sameRoutes_of_same fun i => ?_
  obtain ⟨n, hn⟩ := instr_takeName p source target i
  rw [hn]
  exact ⟨rfl, rfl⟩

theorem sameRoutes_dropInstr (p : Program) (id : InstrId) : p.SameRoutes (p.dropInstr id) :=
  sameRoutes_of_same fun i => ⟨(same_dropInstr p id i).1, (same_dropInstr p id i).2.2⟩

theorem sameRoutes_dropFunction (p : Program) (f : FuncId) : p.SameRoutes (p.dropFunction f) := by
  refine sameRoutes_of_same fun i => ?_
  obtain ⟨_, _, he⟩ := same_dropFunction p f i
  rw [he]
  exact ⟨rfl, rfl⟩

theorem phiBlocks_forgetEntry (i : Instr) (source : BlockId) :
    (forgetEntry i source).phiBlocks ⊆ i.phiBlocks ∧
      source ∉ (forgetEntry i source).phiBlocks := by
  unfold forgetEntry Instr.phiBlocks
  cases hkind : i.kind with
  | phi blocks =>
    refine ⟨fun c hc => ?_, fun hc => ?_⟩
    all_goals obtain ⟨⟨v, b⟩, hv, rfl⟩ := List.mem_map.mp hc
    · exact (List.of_mem_zip (List.mem_of_mem_filter hv)).2
    · simpa using (List.mem_filter.mp hv).2
  | _ => simp [hkind]

theorem sameRoutes_forgetEntry (p : Program) (id : InstrId) (source : BlockId) :
    p.SameRoutes (p.updateInstr id (forgetEntry · source)) := by
  refine ⟨fun i => ?_, fun i => ?_⟩ <;> rw [instr_updateInstr] <;> split
  · exact successors_forgetEntry _ source
  · rfl
  · exact (phiBlocks_forgetEntry _ source).1
  · exact List.Subset.refl _

/-- A phi comes from blocks from which control goes to its block. -/
def PhisFollow (p : Program) : Prop :=
  ∀ i b c, (p.instr i).parent = some c → b ∈ (p.instr i).phiBlocks → c ∈ p.successorsOf b

/-- A linked program loses parts, and what is left is linked. -/
def Cleans (p q : Program) : Prop :=
  Linked noGuests p → Linked noGuests q ∧ p.Shrinks q ∧ p.SameRoutes q

instance : IsPreorder Program Cleans where
  refl p h := ⟨h, .refl p, .refl p⟩
  trans _ _ _ h₁ h₂ h := by
    obtain ⟨hq, hshrinks, hroutes⟩ := h₁ h
    obtain ⟨hr, hshrinks', hroutes'⟩ := h₂ hq
    exact ⟨hr, hshrinks.trans hshrinks', hroutes.trans hroutes'⟩

theorem cleans_forgetEntry (p : Program) (id : InstrId) (source : BlockId) :
    p.Cleans (p.updateInstr id (forgetEntry · source)) := fun h =>
  ⟨h.forgetEntry id source, (trims_forgetEntry p id source h.sound).2,
    sameRoutes_forgetEntry p id source⟩

theorem cleans_remove {id : InstrId} (hlive : (p.instr id).erased = false)
    (hself : Value.mentions (.instr id) v = false)
    (hblocks : ∀ b, Value.mentions (.block b) v = false)
    (hfits : ∀ f, (p.func f).erased = false → p.functionOf? id = some f →
      Refers noGuests p f v) : p.Cleans ((p.replaceUses (.instr id) v).dropInstr id) := by
  intro h
  have hnot : v.toBlock? = none := by
    cases v with
    | block b =>
      have := hblocks b
      rw [Value.mentions_self] at this
      cases this
    | _ => rfl
  have hframe := sameFrame_replaceUses p (.instr id) v
  have hlive' := (hframe.instr id).2.trans hlive
  obtain ⟨hsound, hshrinks⟩ : (p.replaceUses (.instr id) v).Sound ∧ p.Shrinks _ :=
    trims_replaceUses hblocks p h.sound
  refine ⟨h.remove hlive hself fun f hf hin => hfits f hf (hin.resolve_right fun hG => hG),
    hshrinks.trans (trims_dropInstr hlive' hsound).2, ?_⟩
  exact (sameRoutes_replaceUses rfl hnot p).trans (sameRoutes_dropInstr _ id)

theorem cleans_dropFunction (hlive : (p.func f).erased = false)
    (hunused : p.Unused (.func f)) : p.Cleans (p.dropFunction f) := fun h =>
  ⟨h.dropFunction hlive hunused, (trims_dropFunction f h.sound).2, sameRoutes_dropFunction p f⟩

end Program

namespace Transform

open Program

variable {a : ActiveCode} {p q r : Program}

/-! ## 2. Loops that keep a program linked -/

/-- A linked program loses instructions: unused functions stay unused, and blocks stay where they are. -/
def Empties (p q : Program) : Prop :=
  p.Cleans q ∧ (∀ f, p.Unused (.func f) → q.Unused (.func f)) ∧
    ∀ b, (q.block b).parent = (p.block b).parent

instance : IsPreorder Program Empties where
  refl p := ⟨refl_of Cleans p, fun _ hf => hf, fun _ => rfl⟩
  trans _ _ _ h₁ h₂ := ⟨trans_of Cleans h₁.1 h₂.1, fun f hf => h₂.2.1 f (h₁.2.1 f hf),
    fun b => (h₂.2.2 b).trans (h₁.2.2 b)⟩

theorem empties_emptyBlocks (cs : List BlockId) : Keeps Empties (cs.forM emptyBlock) := by
  refine sequential_keeps.forM (keeps_emptyBlock fun p id ty hlive => ⟨?_, fun f hf => ?_, fun b => ?_⟩) cs
  · exact cleans_remove hlive rfl (mentions_undef ty) fun _ _ _ => trivial
  · exact (hf.replaceUses rfl rfl).dropInstr id
  · rw [block_dropInstr]
    split <;> rfl

theorem keeps_deleteFunction (f : FuncId) : Keeps Cleans (deleteFunction f) := by
  intro p u q h hlinked
  unfold deleteFunction at h
  obtain ⟨_, p₁, h₁, h⟩ := bind_ok h
  obtain rfl := modify_ok h₁
  obtain ⟨_, _, h₂, h⟩ := bind_ok h
  obtain ⟨rfl, rfl⟩ := get_ok h₂
  obtain ⟨_, p₂, h₃, h⟩ := bind_ok h
  have hundef : p.Cleans (p.replaceUses (.func f) (.undef (p.valueTy (.func f)))) := fun h =>
    ⟨h.undefine _ _, (trims_replaceUses (fun b => mentions_undef _ b) p h.sound).2,
      sameRoutes_replaceUses rfl rfl p⟩
  obtain ⟨hempty, hunused, -⟩ := empties_emptyBlocks _ _ _ _ h₃
  have hlinked₂ := (hempty (hundef hlinked).1).1
  obtain ⟨hlive, rfl⟩ := (eraseFunction_ok hlinked₂.sound).mp (attempt_ok.mp h)
  have hdrop := cleans_dropFunction hlive
    (hunused f (unused_replaceUses hlinked.sound rfl rfl))
  exact trans_of Cleans hundef (trans_of Cleans hempty hdrop) hlinked

theorem cleans_cutEdges (c : BlockId) : Keeps Cleans (cutEdges c) :=
  keeps_cutEdges fun p id => cleans_forgetEntry p id c

/-! ## 3. Phis forget dead blocks -/

/-- Phis change, and everything stands where it stood. -/
def Reroutes (p q : Program) : Prop :=
  p.SameRoutes q ∧ ∀ b, q.block b = p.block b

instance : IsPreorder Program Reroutes where
  refl p := ⟨.refl p, fun _ => rfl⟩
  trans _ _ _ h₁ h₂ := ⟨h₁.1.trans h₂.1, fun b => (h₂.2 b).trans (h₁.2 b)⟩

theorem reroutes_forgetEntry (p : Program) (id : InstrId) (source : BlockId) :
    Reroutes p (p.updateInstr id (forgetEntry · source)) :=
  ⟨sameRoutes_forgetEntry p id source, fun _ => rfl⟩

theorem cutEdge_forgets {source : BlockId} (hlive : (p.block b).erased = false)
    (h : p.cutEdge b source = .ok q) :
    ∀ i ∈ (p.block b).instrs, source ∉ (q.instr i).phiBlocks := by
  have hall : ∀ (ids : List InstrId) (p : Program),
      ids.foldlM (forgetIn source) p = .ok q →
      p.SameRoutes q ∧ ∀ i ∈ ids, source ∉ (q.instr i).phiBlocks := by
    intro ids
    induction ids with
    | nil =>
      intro p h
      cases h
      exact ⟨.refl q, nofun⟩
    | cons id ids ih =>
      intro p h
      rw [List.foldlM_cons] at h
      obtain ⟨r, hr, h⟩ := except_bind_ok.mp h
      obtain ⟨hroutes, hrest⟩ := ih r h
      -- `id` has forgotten the block, or never knew one
      have hone : p.SameRoutes r ∧ source ∉ (r.instr id).phiBlocks := by
        rcases forgetIn_ok hr with ⟨hphi, rfl⟩ | ⟨hplain, rfl⟩
        · refine ⟨sameRoutes_forgetEntry p id source, ?_⟩
          by_cases hlt : id.index < p.instrs.size
          · rw [instr_updateInstr_self hlt]
            exact (phiBlocks_forgetEntry _ source).2
          · rw [instr_of_le (Nat.not_lt.mp hlt)] at hphi
            cases hphi
        · refine ⟨.refl _, ?_⟩
          unfold Instr.phiBlocks
          split
          · rename_i blocks hkind
            exact absurd (Instr.isPhi_iff.mpr ⟨blocks, hkind⟩) (Bool.eq_false_iff.mp hplain)
          · exact List.not_mem_nil
      refine ⟨hone.1.trans hroutes, fun i hi => ?_⟩
      rcases List.mem_cons.mp hi with rfl | hi
      · exact fun hmem => hone.2 (hroutes.incoming i hmem)
      · exact hrest i hi
  rw [cutEdge_eq, hlive, if_neg Bool.false_ne_true] at h
  exact (hall _ p h).2

theorem reroutes_cutEdges (c : BlockId) : Keeps Reroutes (cutEdges c) :=
  keeps_cutEdges fun p id => reroutes_forgetEntry p id c

theorem cutEdges_forget {t : InstrId} {u : Unit}
    (hlast : (p.block c).terminator? = some t) (hd : d ∈ (p.instr t).successors)
    (hlive : (p.block d).erased = false) (h : cutEdges c p = .ok u q) :
    ∀ i ∈ (p.block d).instrs, c ∉ (q.instr i).phiBlocks := by
  unfold cutEdges at h
  obtain ⟨_, _, h₁, h⟩ := bind_ok h
  obtain ⟨rfl, rfl⟩ := get_ok h₁
  rw [hlast] at h
  have hkeeps : ∀ next, Keeps Reroutes (Edit.attempt (·.cutEdge next c)) := fun next p _ q h =>
    cutEdge_keeps (fun p id => reroutes_forgetEntry p id c) (attempt_ok.mp h)
  obtain ⟨r, r', _, hbefore, hcut, hafter⟩ := forM_reaches hkeeps h hd
  intro i hi hmem
  rw [← hbefore.2 d] at hi hlive
  exact cutEdge_forgets hlive (attempt_ok.mp hcut) i hi (hafter.1.incoming i hmem)

theorem cutAllEdges_forget {t : InstrId}
    (hc : c ∈ cs) (hlast : (p.block c).terminator? = some t) (hd : d ∈ (p.instr t).successors)
    (hlive : (p.block d).erased = false) (h : cs.forM cutEdges p = .ok u q) :
    ∀ i ∈ (p.block d).instrs, c ∉ (q.instr i).phiBlocks := by
  obtain ⟨r, r', _, hbefore, hcut, hafter⟩ := forM_reaches reroutes_cutEdges h hc
  intro i hi hmem
  rw [← hbefore.2 c] at hlast
  rw [← hbefore.1.successors t] at hd
  rw [← hbefore.2 d] at hi hlive
  exact cutEdges_forget hlast hd hlive hcut i hi (hafter.1.incoming i hmem)

/-! ## 4. Blocks that nothing refers to are erased -/

theorem eraseUnused_linked {n : Nat} (hlinked : Linked noGuests p)
    (hempty : ∀ c ∈ cs, (p.block c).instrs = [])
    (hphis : ∀ f i, (p.func f).erased = false → p.functionOf? i = some f →
      ∀ c ∈ cs, c ∉ (p.instr i).phiBlocks) (h : eraseUnused cs p = .ok n q) :
    Linked noGuests q := by
  induction cs generalizing p n with
  | nil =>
    cases h
    exact hlinked
  | cons c cs ih =>
    unfold eraseUnused at h
    obtain ⟨_, _, h₁, h⟩ := bind_ok h
    obtain ⟨rfl, rfl⟩ := get_ok h₁
    split at h
    · exact ih hlinked (fun d hd => hempty d (List.mem_cons_of_mem c hd))
        (fun f i hf hi d hd => hphis f i hf hi d (List.mem_cons_of_mem c hd)) h
    · rename_i hunused
      obtain ⟨_, p₁, h₂, h⟩ := bind_ok h
      obtain ⟨m, p₂, h₃, h⟩ := bind_ok h
      obtain ⟨-, rfl⟩ := pure_ok h
      obtain ⟨hlive, rfl⟩ := eraseBlock_ok.mp (attempt_ok.mp h₂)
      obtain ⟨hsound, hshrinks⟩ := trims_dropBlock hlive hlinked.sound
      have hinstr : ∀ i, (p.dropBlock c).instr i = p.instr i := by
        intro i
        rw [instr_dropBlock, hempty c List.mem_cons_self, if_neg fun hi => List.not_mem_nil hi.1]
      refine ih (hlinked.dropBlock hlive (hempty c List.mem_cons_self)
        (unused_of_hasUses hlinked.sound (Bool.eq_false_iff.mpr hunused))
        fun f i hf hi => hphis f i hf hi c List.mem_cons_self) ?_ ?_ h₃
      · intro d hd
        have hsub := hshrinks.instrs d
        rw [hempty d (List.mem_cons_of_mem c hd)] at hsub
        exact List.sublist_nil.mp hsub
      · intro f i hf hi d hd
        rw [hinstr]
        refine hphis f i ?_ ?_ d (List.mem_cons_of_mem c hd)
        · rw [func_dropBlock] at hf
          split at hf <;> exact hf
        · obtain ⟨b, hb, hparent⟩ := Option.bind_eq_some_iff.mp hi
          rw [hinstr] at hb
          refine Option.bind_eq_some_iff.mpr ⟨b, hb, ?_⟩
          rcases block_dropBlock p c b with hsame | hgone
          · rwa [hsame] at hparent
          · rw [hgone] at hparent
            cases hparent

theorem eraseUnused_holds {n : Nat} (hp : p.Sound)
    (hb : b ∉ cs) (hi : i ∈ (p.block b).instrs) (huses : (p.instr i).uses (.block c) = true)
    (h : eraseUnused cs p = .ok n q) : q.block c = p.block c := by
  induction cs generalizing p n with
  | nil =>
    cases h
    rfl
  | cons d cs ih =>
    obtain ⟨hbd, hb⟩ := not_or.mp (List.mem_cons.not.mp hb)
    unfold eraseUnused at h
    obtain ⟨_, _, h₁, h⟩ := bind_ok h
    obtain ⟨rfl, rfl⟩ := get_ok h₁
    split at h
    · exact ih hp hb hi huses h
    · rename_i hunused
      obtain ⟨_, p₁, h₂, h⟩ := bind_ok h
      obtain ⟨m, p₂, h₃, h⟩ := bind_ok h
      obtain ⟨-, rfl⟩ := pure_ok h
      obtain ⟨hlive, rfl⟩ := eraseBlock_ok.mp (attempt_ok.mp h₂)
      have hparent := hp.mem_instrs.mp hi
      have hdc : d ≠ c := by
        rintro rfl
        exact hunused (hasUses_iff.mpr (.inl ⟨i, hp.instr_live hi, by rw [hparent]; rfl, huses⟩))
      have hsame : (p.dropBlock d).instr i = p.instr i := by
        rw [instr_dropBlock, if_neg]
        rintro ⟨hmem, -⟩
        rw [hp.mem_instrs.mp hmem] at hparent
        exact hbd (Option.some.inj hparent).symm
      refine (ih (trims_dropBlock hlive hp).1 hb ?_ (by rwa [hsame]) h₃).trans
        (block_dropBlock_ne hdc)
      rwa [block_dropBlock_ne (Ne.symm hbd)]

/-! ## 5. What is left -/

theorem isTerminator_of_shrinks (h : p.Shrinks q) (i : InstrId) :
    (q.instr i).isTerminator = (p.instr i).isTerminator := by
  cases hphi : (p.instr i).isPhi with
  | false => rw [Instr.isTerminator, h.kind i hphi, Instr.isTerminator]
  | true =>
    obtain ⟨incoming, hkind⟩ := Instr.isPhi_iff.mp hphi
    obtain ⟨incoming', hkind'⟩ := Instr.isPhi_iff.mp ((h.phi i).trans hphi)
    rw [Instr.isTerminator, Instr.isTerminator, hkind, hkind']
    rfl

theorem isPhi_of_isTerminator {i : Instr} (h : i.isTerminator = true) : i.isPhi = false := by
  unfold Instr.isTerminator InstrKind.isTerminator at h
  unfold Instr.isPhi
  split at h <;> simp_all

theorem mem_of_within {fs : List FuncId} {bs : List BlockId}
    (h : Within fs bs p q) (hb : b ∉ bs) (hi : i ∈ (p.block b).instrs)
    (hterm : (p.instr i).isTerminator = true) : i ∈ (q.block b).instrs := by
  have hmem : i ∈ q.plainInstrs b := by
    rw [(h.block b hb).2]
    exact List.mem_filter.mpr ⟨hi, by rw [isPhi_of_isTerminator hterm]; rfl⟩
  exact (List.mem_filter.mp hmem).1

theorem ordered_of_within {fs : List FuncId} {bs : List BlockId} (hp : p.Sound)
    (h : Within fs bs p q) (hb : b ∉ bs) (horder : p.Ordered (p.block b).instrs) :
    q.Ordered (q.block b).instrs := by
  have hsub := h.shrinks.instrs b
  have hshape : ∀ i, (q.instr i).isTerminator = (p.instr i).isTerminator ∧
      (q.instr i).isPhi = (p.instr i).isPhi := fun i =>
    ⟨isTerminator_of_shrinks h.shrinks i, h.shrinks.phi i⟩
  have hends : ∀ i ∈ (p.block b).instrs, (p.instr i).isTerminator = true →
      (q.block b).instrs.getLast? = some i := by
    intro i hi hterm
    obtain ⟨front, hfront⟩ := List.getLast?_eq_some_iff.mp (horder.last i hi hterm)
    have hnodup := hp.nodup_instrs b
    have hmem := mem_of_within h hb hi hterm
    rw [hfront] at hsub hnodup
    obtain ⟨l₁, l₂, heq, h₁, h₂⟩ := List.sublist_append_iff.mp hsub
    rcases List.sublist_singleton.mp h₂ with rfl | rfl
    · -- the last one would stand before itself
      rw [heq, List.append_nil] at hmem
      exact absurd (h₁.subset hmem) fun hin =>
        (List.nodup_append.mp hnodup).2.2 i hin i (List.mem_singleton_self i) rfl
    · rw [heq, List.getLast?_concat]
  obtain ⟨last, hlast, hterm⟩ := horder.ends
  refine ⟨⟨last, hends last (List.mem_of_getLast? hlast) hterm, by rwa [(hshape last).1]⟩,
    fun i hi hterm => hends i (hsub.subset hi) (by rwa [← (hshape i).1]), ?_⟩
  refine (horder.phisFirst.sublist hsub).imp fun hij hj => ?_
  rw [(hshape _).2] at hj ⊢
  exact hij hj

section

variable {n : Nat × Nat} {p₁ p₂ p₃ : Program} {u₁ u₂ u₃ : PUnit} (hp : p.Sound) (hv : p.Verified)
  (hphis : p.PhisFollow)

include hv in
theorem terminator_of_successors (hf : (p.func f).erased = false)
    (hb : b ∈ (p.func f).blocks) (hc : c ∈ p.successorsOf b) :
    ∃ t ∈ (p.block b).instrs, (p.block b).terminator? = some t ∧
      (p.instr t).isTerminator = true ∧ c ∈ (p.instr t).successors := by
  obtain ⟨t, ht, hsuccessor⟩ := List.mem_flatMap.mp hc
  have hterm := Instr.isTerminator_of_successors hsuccessor
  exact ⟨t, ht, ((hv f hf b hb).instrs t ht).last hterm, hterm, hsuccessor⟩

include hp in
theorem not_mem_of_active (hf : f ∈ a.functions)
    (hb : b ∈ (p.func f).blocks) : b ∉ (deadFunctions p a).flatMap fun f => (p.func f).blocks := by
  intro hmem
  obtain ⟨g, hg, hbg⟩ := List.mem_flatMap.mp hmem
  rw [hp.mem_blocks, hp.mem_blocks.mp hb, Option.some_inj] at hbg
  exact (mem_deadFunctions.mp hg).2.1 (hbg ▸ hf)

include hp hv hphis

theorem incoming_alive (hfunctions : (deadFunctions p a).forM deleteFunction p = .ok u₁ p₁)
    (hedges : (deadBlocks p a).forM cutEdges p₁ = .ok u₂ p₂)
    (hd : (p₂.instr i).parent = some d) (hc : c ∈ deadBlocks p a) :
    c ∉ (p₂.instr i).phiBlocks := by
  obtain ⟨f, hf, hactive, hlisted, -⟩ := mem_deadBlocks.mp hc
  have hlinked := hv.linked hp
  obtain ⟨hlinked₁, hshrinks₁, hroutes₁⟩ :=
    sequential_keeps.forM keeps_deleteFunction _ _ _ _ hfunctions hlinked
  obtain ⟨-, hshrinks₂, hroutes₂⟩ :=
    sequential_keeps.forM cleans_cutEdges _ _ _ _ hedges hlinked₁
  intro hmem
  have hd₁ := hshrinks₂.parent i d hd
  have hsource := hphis i c d (hshrinks₁.parent i d hd₁)
    ((hroutes₁.trans hroutes₂).incoming i hmem)
  obtain ⟨t, ht, -, hterm, hsuccessor⟩ := terminator_of_successors hv hf hlisted hsource
  -- the deletion of dead functions has left `c` alone
  obtain ⟨hwithin, -⟩ : Within (deadFunctions p a)
      ((deadFunctions p a).flatMap fun f => (p.func f).blocks) p p₁ ∧ _ :=
    deleteFunctions_ok hp (List.Subset.refl _)
      (fun g hg b hb => List.mem_flatMap.mpr ⟨g, hg, hb⟩) hfunctions
  have hspared := not_mem_of_active hp hactive hlisted
  have horder := ordered_of_within hp hwithin hspared (hv.inOrder f hf c hlisted)
  have hlast := horder.last t (mem_of_within hwithin hspared ht hterm) ((isTerminator_of_shrinks hshrinks₁ t).trans hterm)
  have hi := hlinked₁.sound.mem_instrs.mpr hd₁
  exact cutAllEdges_forget hc hlast (by rwa [hroutes₁.successors]) (hlinked₁.sound.block_live hi)
    hedges i hi hmem

theorem verified_of_closedFlow (ht : p.TargetsOnly) (hclosed : ClosedFlow p a)
    (h : deleteDeadCode a p = .ok n q) : q.Verified := by
  obtain ⟨_, p₁, _, p₂, _, p₃, m, hfunctions, hedges, hempty, herase⟩ := deleteDeadCode_parts h
  obtain ⟨hlinked₁, hshrinks₁, hroutes₁⟩ :=
    sequential_keeps.forM keeps_deleteFunction _ _ _ _ hfunctions (hv.linked hp)
  obtain ⟨hlinked₂, hshrinks₂, hroutes₂⟩ :=
    sequential_keeps.forM cleans_cutEdges _ _ _ _ hedges hlinked₁
  obtain ⟨hcleans, -, hparent⟩ := empties_emptyBlocks _ _ _ _ hempty
  obtain ⟨hlinked₃, hshrinks₃, hroutes₃⟩ := hcleans hlinked₂
  have hempties := emptyBlocks_ok hlinked₂.sound hempty
  have hlinked : Linked noGuests q := by
    refine eraseUnused_linked hlinked₃ (fun c hc => hempties c (List.mem_reverse.mpr hc))
      (fun f i hf hi c hc hmem => ?_) herase
    obtain ⟨d, hd⟩ := parent_of_functionOf hi
    exact incoming_alive hp hv hphis hfunctions hedges (hshrinks₃.parent i d hd) hc
      (hroutes₃.incoming i hmem)
  obtain ⟨hwithin, hgone, hcut⟩ := deleteDeadCode_ok hp h
  have hcut := hcut fun r hr hs hempty b hb => unused_of_empty hp hv ht hclosed hr hs hempty hb
  refine hlinked.verified fun f hf b hb => ?_
  have hlisted := (hwithin.shrinks.blocks f).subset hb
  have hold : (p.func f).erased = false := by
    cases herased : (p.func f).erased with
    | false => rfl
    | true => rw [hwithin.shrinks.erasedFunc f herased] at hf; cases hf
  -- a function with a body that is left is active, and so are its blocks
  have hactive : f ∈ a.functions := by
    by_contra hnot
    have hdead : f ∈ deadFunctions p a := by
      refine mem_deadFunctions.mpr ⟨hold, hnot, Bool.eq_false_iff.mpr fun hdeclared => ?_⟩
      rw [List.isEmpty_iff.mp hdeclared] at hlisted
      cases hlisted
    rw [hgone f hdead] at hf
    cases hf
  have hspared : b ∉ prunedBlocks p a := by
    intro hmem
    rcases List.mem_append.mp hmem with hmem | hmem
    · exact not_mem_of_active hp hactive hlisted hmem
    · exact hcut b hmem f hb
  exact ordered_of_within hp hwithin hspared (hv.inOrder f hold b hlisted)

omit hphis in
theorem closedFlow_of_verified (h : deleteDeadCode a p = .ok n q) (hq : q.Verified) :
    ClosedFlow p a := by
  intro f hactive hf b hb hbactive c hc
  by_contra hdead
  obtain ⟨t, ht, hlast, hterm, hsuccessor⟩ := terminator_of_successors hv hf hb hc
  have hcf : (p.block c).parent = some f := operandProblem?_block
    (((hv f hf b hb).instrs t ht).operands _ (Instr.mem_of_successors hsuccessor))
  have hclisted := hp.mem_blocks.mpr hcf
  have hcdead := mem_deadBlocks.mpr ⟨f, hf, hactive, hclisted, hdead⟩
  obtain ⟨_, p₁, _, p₂, _, p₃, m, hfunctions, hedges, hempty, herase⟩ := deleteDeadCode_parts h
  obtain ⟨hlinked₁, hshrinks₁, hroutes₁⟩ :=
    sequential_keeps.forM keeps_deleteFunction _ _ _ _ hfunctions (hv.linked hp)
  obtain ⟨hlinked₂, hshrinks₂, hroutes₂⟩ :=
    sequential_keeps.forM cleans_cutEdges _ _ _ _ hedges hlinked₁
  obtain ⟨hcleans, -, hparent⟩ := empties_emptyBlocks _ _ _ _ hempty
  obtain ⟨hlinked₃, hshrinks₃, hroutes₃⟩ := hcleans hlinked₂
  have hempties := emptyBlocks_ok hlinked₂.sound hempty c (List.mem_reverse.mpr hcdead)
  have hbdead : b ∉ deadBlocks p a := fun hmem => by
    obtain ⟨-, -, -, -, hnot⟩ := mem_deadBlocks.mp hmem
    exact hnot hbactive
  have hdeadFree := not_mem_of_active hp hactive hb
  -- `b` keeps its last instruction, which refers to `c`
  obtain ⟨hwithin₁, -⟩ : Within (deadFunctions p a) (prunedBlocks p a) p p₁ ∧ _ :=
    deleteFunctions_ok hp (List.Subset.refl _)
      (fun g hg d hd => List.mem_append_left _ (List.mem_flatMap.mpr ⟨g, hg, hd⟩)) hfunctions
  have hwithin₂ : Within (deadFunctions p a) (prunedBlocks p a) p₁ p₂ :=
    sequential_keeps.forM prunes_cutEdges _ _ _ _ hedges hlinked₁.sound
  have hwithin₃ : Within (deadFunctions p a) (prunedBlocks p a) p₂ p₃ :=
    prunes_emptyBlocks (fun d hd => List.mem_append_right _ (List.mem_reverse.mp hd)) _ _ _ hempty
      hlinked₂.sound
  have hwithin := (hwithin₁.trans hwithin₂).trans hwithin₃
  have ht₃ := mem_of_within hwithin
    (fun hmem => (List.mem_append.mp hmem).elim hdeadFree hbdead) ht hterm
  have huses : (p₃.instr t).uses (.block c) = true := by
    refine Instr.uses_of_mem (Instr.mem_of_successors ?_)
    rwa [((hroutes₁.trans hroutes₂).trans hroutes₃).successors]
  have hheld := eraseUnused_holds hlinked₃.sound hbdead ht₃ huses herase
  -- so `c` is still a block of `f`, without an instruction
  obtain ⟨hall, hgone, -⟩ := deleteDeadCode_ok hp h
  have hfree : f ∉ deadFunctions p a := fun hmem => (mem_deadFunctions.mp hmem).2.1 hactive
  have hstill : (q.block c).parent = some f := by
    obtain ⟨hspared, -⟩ : Within (deadFunctions p a)
        ((deadFunctions p a).flatMap fun f => (p.func f).blocks) p p₁ ∧ _ :=
      deleteFunctions_ok hp (List.Subset.refl _)
        (fun g hg d hd => List.mem_flatMap.mpr ⟨g, hg, hd⟩) hfunctions
    have hcut := sequential_keeps.forM reroutes_cutEdges _ _ _ _ hedges
    rw [hheld, hparent, hcut.2,
      (hspared.block c (not_mem_of_active hp hactive hclisted)).1, hcf]
  obtain ⟨last, hlast, -⟩ := (hq f ((hall.func f hfree).trans hf) c
    (hall.sound.mem_blocks.mpr hstill)).ends
  rw [Block.terminator?, hheld, hempties] at hlast
  cases hlast

end

/-! ## 6. Settled phis -/

open Relation (TransGen)

/-- The phi gives way to the instruction. -/
def GivesWay (p : Program) (a : ActiveCode) (phi i : InstrId) : Prop :=
  (phi, .instr i) ∈ settledPhis p a

/-- No phi gives way to a value that mentions a phi that gives way itself, unless it is the value. -/
def PlainInputs (p : Program) (a : ActiveCode) : Prop :=
  ∀ x ∈ settledPhis p a, ∀ y ∈ settledPhis p a,
    Value.mentions (.instr x.1) y.2 = true → y.2 = .instr x.1

theorem settle_append (done : List (InstrId × Value)) (phi : InstrId) (v w : Value) :
    settle (done ++ [(phi, v)]) w =
      if settle done w = .instr phi then v else settle done w := by
  unfold settle
  rw [List.foldl_append]
  rfl

theorem settle_leads {R : InstrId → InstrId → Prop}
    (hdone : ∀ x ∈ done, ∀ i, x.2 = .instr i → TransGen R x.1 i)
    (hv : ∀ i, v = .instr i → TransGen R phi i) (i : InstrId) (h : settle done v = .instr i) :
    TransGen R phi i := by
  induction done generalizing v with
  | nil => exact hv i h
  | cons x done ih =>
    refine ih (fun y hy => hdone y (List.mem_cons_of_mem x hy)) (fun j hj => ?_) h
    dsimp only at hj
    split at hj
    · rename_i heq
      exact (hv x.1 heq).trans (hdone x List.mem_cons_self j hj)
    · exact hv j hj

/-- What holds while the phis of `p₀` give way one after the other. -/
structure Settling (p₀ : Program) (a : ActiveCode) (done rest : List (InstrId × Value))
    (p : Program) : Prop where
  linked : Linked noGuests p
  known : rest ⊆ settledPhis p₀ a
  values : ∀ x ∈ done, ∃ y ∈ settledPhis p₀ a, y.2 = x.2
  leads : ∀ x ∈ done, ∀ i, x.2 = .instr i → TransGen (GivesWay p₀ a) x.1 i
  /-- The value that a phi gives way to stands among its operands, as it reads by now. -/
  operand : ∀ x ∈ rest, (p.instr x.1).erased = false → settle done x.2 ∈ (p.instr x.1).operands

theorem Settling.value (h : Settling p₀ a done rest p) {x : InstrId × Value} (hx : x ∈ rest) :
    ∃ y ∈ settledPhis p₀ a, y.2 = settle done x.2 :=
  settle_of_all (P := fun v => ∃ y ∈ settledPhis p₀ a, y.2 = v) h.values ⟨x, h.known hx, rfl⟩

theorem Settling.leadsOn (h : Settling p₀ a done ((phi, w) :: rest) p) (i : InstrId)
    (hi : settle done w = .instr i) : TransGen (GivesWay p₀ a) phi i := by
  refine settle_leads h.leads (fun j hj => .single ?_) i hi
  rw [GivesWay, ← hj]
  exact h.known List.mem_cons_self

theorem takeName_cases
    (h : (v.toInstr?.forM fun target => (modify (·.takeName phi target) : Edit PUnit)) p = .ok u q) :
    p.Cleans q ∧ (∀ i, ∃ n, q.instr i = { p.instr i with name := n }) := by
  cases htarget : v.toInstr? with
  | none =>
    rw [htarget] at h
    cases h
    exact ⟨refl_of Cleans _, fun i => ⟨_, rfl⟩⟩
  | some target =>
    rw [htarget] at h
    obtain rfl := modify_ok h
    exact ⟨fun hlinked => ⟨hlinked.takeName phi target, (trims_takeName p phi target hlinked.sound).2,
      sameRoutes_takeName p phi target⟩, instr_takeName p phi target⟩

section

variable {p₀ : Program} {done rest : List (InstrId × Value)} {phi : InstrId} {w : Value}
  (hacyclic : ∀ i, ¬ TransGen (GivesWay p₀ a) i i) (hplain : PlainInputs p₀ a)
  (hblocks : ∀ x ∈ settledPhis p₀ a, ∀ b, Value.mentions (.block b) x.2 = false)

include hacyclic hplain

theorem Settling.not_mentions (h : Settling p₀ a done ((phi, w) :: rest) p) :
    Value.mentions (.instr phi) (settle done w) = false := by
  have hphi := h.known List.mem_cons_self
  refine Bool.eq_false_iff.mpr fun hmentions => hacyclic phi ?_
  obtain ⟨y, hy, hyv⟩ := h.value List.mem_cons_self
  have hself : settle done w = .instr phi := hyv ▸ hplain _ hphi y hy (hyv ▸ hmentions)
  exact h.leadsOn phi hself

omit hacyclic in
theorem Settling.substitute (h : Settling p₀ a done ((phi, w) :: rest) p) {x : InstrId × Value}
    (hx : x ∈ rest) : Value.substitute (.instr phi) (settle done w) (settle done x.2) =
      settle (done ++ [(phi, settle done w)]) x.2 := by
  have hphi := h.known List.mem_cons_self
  obtain ⟨y, hy, hyv⟩ := h.value (List.mem_cons_of_mem _ hx)
  rw [settle_append]
  split
  · rename_i heq
    rw [heq]
    simp [Value.substitute]
  · rename_i hne
    refine Value.substitute_of_not_mentions _ (Bool.eq_false_iff.mpr fun hmentions => hne ?_)
    exact hyv ▸ hplain _ hphi y hy (hyv ▸ hmentions)

include hblocks

theorem Settling.step (h : Settling p₀ a done ((phi, w) :: rest) p)
    (hname : ((settle done w).toInstr?.forM fun target =>
      (modify (·.takeName phi target) : Edit PUnit)) p = .ok u p₁)
    (hlive : (p₁.instr phi).erased = false) :
    p.Cleans ((p₁.replaceUses (.instr phi) (settle done w)).dropInstr phi) ∧
      Settling p₀ a (done ++ [(phi, settle done w)]) rest
        ((p₁.replaceUses (.instr phi) (settle done w)).dropInstr phi) := by
  have hphi := h.known List.mem_cons_self
  obtain ⟨hnamed, hinstr⟩ := takeName_cases hname
  have hlinked₁ := (hnamed h.linked).1
  have hvalue := h.value List.mem_cons_self
  have hoperand : ∀ x ∈ (phi, w) :: rest, (p₁.instr x.1).erased = false →
      settle done x.2 ∈ (p₁.instr x.1).operands := by
    intro x hx hxlive
    obtain ⟨n, hn⟩ := hinstr x.1
    rw [hn] at hxlive ⊢
    exact h.operand x hx hxlive
  have hremoved : p₁.Cleans ((p₁.replaceUses (.instr phi) (settle done w)).dropInstr phi) := by
    refine cleans_remove hlive (h.not_mentions hacyclic hplain) ?_ fun f hf hin =>
      hlinked₁.operands f phi hf hin _ (hoperand _ List.mem_cons_self hlive)
    obtain ⟨y, hy, hyv⟩ := hvalue
    exact hyv ▸ hblocks y hy
  refine ⟨trans_of Cleans hnamed hremoved, (hremoved hlinked₁).1,
    fun x hx => h.known (List.mem_cons_of_mem _ hx), fun x hx => ?_, fun x hx => ?_,
    fun x hx hxlive => ?_⟩
  · rcases List.mem_append.mp hx with hx | hx
    · exact h.values x hx
    · rw [List.mem_singleton.mp hx]
      exact hvalue
  · rcases List.mem_append.mp hx with hx | hx
    · exact h.leads x hx
    · rw [List.mem_singleton.mp hx]
      exact h.leadsOn
  · have hne : phi ≠ x.1 := by
      rintro rfl
      rw [instr_dropInstr_self] at hxlive
      · cases hxlive
      · rw [(sameFrame_replaceUses ..).instrs]
        exact instr_lt_of_live hlive
    rw [instr_dropInstr_ne hne] at hxlive ⊢
    rw [((sameFrame_replaceUses ..).instr x.1).2] at hxlive
    have hmem := hoperand x (List.mem_cons_of_mem _ hx) hxlive
    rw [← h.substitute hplain hx, instr_replaceUses, hxlive]
    split
    · exact List.mem_map_of_mem hmem
    · rename_i hnot
      have hnone : Value.mentions (.instr phi) (settle done x.2) = false := by
        refine Bool.eq_false_iff.mpr fun hmentions => hnot ?_
        exact Instr.uses_iff.mpr ⟨_, hmem, hmentions⟩
      rwa [Value.substitute_of_not_mentions _ hnone]

theorem Settling.run {u : Unit} (h : Settling p₀ a done rest p)
    (hrun : replacePhis done rest p = .ok u q) : p.Cleans q := by
  induction rest generalizing p done with
  | nil =>
    cases hrun
    exact refl_of Cleans _
  | cons x rest ih =>
    obtain ⟨phi, w⟩ := x
    unfold replacePhis at hrun
    obtain ⟨_, p₁, h₁, hrun⟩ := bind_ok hrun
    obtain ⟨_, p₂, h₂, hrun⟩ := bind_ok hrun
    obtain ⟨_, p₃, h₃, hrun⟩ := bind_ok hrun
    obtain ⟨hlive, rfl⟩ := eraseInstr_ok.mp (attempt_ok.mp h₃)
    obtain rfl := modify_ok h₂
    rw [((sameFrame_replaceUses ..).instr phi).2] at hlive
    obtain ⟨hcleans, hnext⟩ := h.step hacyclic hplain hblocks h₁ hlive
    exact trans_of Cleans hcleans (ih hnext hrun)

end

theorem mem_successorsOf_of_within (h : Within [] [] p q) (hroutes : p.SameRoutes q) :
    c ∈ q.successorsOf b ↔ c ∈ p.successorsOf b := by
  constructor
  · intro hc
    obtain ⟨i, hi, hsuccessor⟩ := List.mem_flatMap.mp hc
    exact List.mem_flatMap.mpr ⟨i, (h.shrinks.instrs b).subset hi, hroutes.successors i ▸ hsuccessor⟩
  · intro hc
    obtain ⟨i, hi, hsuccessor⟩ := List.mem_flatMap.mp hc
    exact List.mem_flatMap.mpr ⟨i, mem_of_within h List.not_mem_nil hi
      (Instr.isTerminator_of_successors hsuccessor), (hroutes.successors i).symm ▸ hsuccessor⟩

theorem replaceSettledPhis_verified {k : Nat} (hp : p.Sound) (hv : p.Verified) (ht : p.TargetsOnly)
    (hphis : p.PhisFollow) (hacyclic : ∀ i, ¬ TransGen (GivesWay p a) i i)
    (hplain : PlainInputs p a) (h : replaceSettledPhis a p = .ok k q) :
    q.Sound ∧ q.Verified ∧ q.TargetsOnly ∧ q.PhisFollow ∧ (ClosedFlow q a ↔ ClosedFlow p a) := by
  have hwithin : Within [] [] p q := replaceSettledPhis_ok hp ht h
  have hlinked := hv.linked hp
  have hcleans : p.Cleans q := by
    unfold replaceSettledPhis at h
    obtain ⟨_, _, h₁, h⟩ := bind_ok h
    obtain ⟨rfl, rfl⟩ := get_ok h₁
    obtain ⟨_, p₁, h₂, h⟩ := bind_ok h
    obtain ⟨-, rfl⟩ := pure_ok h
    have hstart : Settling p a [] (settledPhis p a) p := by
      refine ⟨hlinked, List.Subset.refl _, nofun, nofun, fun x hx _ => ?_⟩
      exact (activeInput?_some (mem_settledPhis.mp hx).2).2
    exact hstart.run hacyclic hplain (fun x hx => (settledPhis_blocks hp ht x hx).2) h₂
  obtain ⟨hlinked', -, hroutes⟩ := hcleans hlinked
  have herased : ∀ f, (q.func f).erased = (p.func f).erased := fun f =>
    hwithin.func f List.not_mem_nil
  have hlisted : ∀ f, (q.func f).blocks = (p.func f).blocks := fun f =>
    (hwithin.blocks hp (fun _ _ _ => List.not_mem_nil) fun _ _ hk => by cases hk).trans
      (List.filter_true _)
  have hroute : ∀ {b c}, c ∈ q.successorsOf b ↔ c ∈ p.successorsOf b :=
    mem_successorsOf_of_within hwithin hroutes
  refine ⟨hwithin.sound, hlinked'.verified fun f hf b hb => ?_, ⟨fun i b hattached huses => ?_,
    fun g b => Bool.eq_false_iff.mpr fun huses => ?_, fun i b hb => ?_⟩, fun i b c hc hb => ?_, ?_⟩
  · rw [herased] at hf
    rw [hlisted] at hb
    exact ordered_of_within hp hwithin List.not_mem_nil (hv.inOrder f hf b hb)
  · obtain ⟨c, hc⟩ := Option.isSome_iff_exists.mp hattached
    rw [hroutes.successors]
    exact ht.instrs i b (by rw [hwithin.shrinks.parent i c hc]; rfl) (hwithin.shrinks.uses i b huses)
  · exact Bool.eq_false_iff.mp (ht.globals g b) (hwithin.shrinks.globals g b huses)
  · obtain ⟨f, hf, hparent⟩ := ht.placed i b (hwithin.shrinks.parent i b hb)
    exact ⟨f, (herased f).trans hf, (hwithin.block b List.not_mem_nil).1.trans hparent⟩
  · exact hroute.mpr (hphis i b c (hwithin.shrinks.parent i c hc) (hroutes.incoming i hb))
  · unfold ClosedFlow
    simp only [herased, hlisted, hroute]

/-! ## 7. The whole deletion -/

/-- What is asked of a program before its dead code goes: only terminators refer to blocks, phis come
    from the predecessors of their blocks, and phis give way without a cycle. -/
structure Prepared (p : Program) (a : ActiveCode) : Prop where
  sound : p.Sound
  verified : p.verify = .ok ()
  targets : p.TargetsOnly
  incoming : ∀ i c, (p.instr i).parent = some c → (p.instr i).isPhi = true →
    ∀ b, b ∈ (p.instr i).phiBlocks ↔ c ∈ p.successorsOf b
  acyclic : ∀ i, ¬ TransGen (GivesWay p a) i i

theorem Prepared.phisFollow (h : Prepared p a) : p.PhisFollow := by
  intro i b c hc hb
  refine (h.incoming i c hc (Instr.isPhi_iff.mpr ?_) b).mp hb
  unfold Instr.phiBlocks at hb
  split at hb
  · rename_i blocks hkind
    exact ⟨blocks, hkind⟩
  · cases hb

section

variable {s : TransformSettings}

theorem closedFlow_activeCode (hp : p.Sound) (hv : p.Verified) (hexcept : s.assumeNoExcept = false)
    (ha : activeCode s p = .ok a) : ClosedFlow p a := by
  rcases Nat.eq_zero_or_pos s.maxRecursion with hdepth | hdepth
  · intro f _ _ b _ hb
    rw [activeCode_blocks_of_zero hdepth ha] at hb
    cases hb
  · exact closedFlow_of_active hp hv (mem_activeCode hp hv hexcept hdepth ha).2

/-- What is left is verified just if control never goes from active code to dead code, and always if
    calls may throw. -/
theorem deleteDeadCode_verified {p₁ : Program} {k : Nat} {n : Nat × Nat} (h : Prepared p a)
    (hplain : PlainInputs p a) (ha : activeCode s p = .ok a)
    (hphis : replaceSettledPhis a p = .ok k p₁) (hdelete : deleteDeadCode a p₁ = .ok n q) :
    (q.verify = .ok () ↔ ClosedFlow p a) ∧
      (s.assumeNoExcept = false → q.verify = .ok ()) := by
  have hv := verify_ok.mp h.verified
  obtain ⟨hp₁, hv₁, ht₁, hphis₁, hflow⟩ := replaceSettledPhis_verified h.sound hv h.targets
    h.phisFollow h.acyclic hplain hphis
  have hexact : q.verify = .ok () ↔ ClosedFlow p a := by
    rw [verify_ok, ← hflow]
    exact ⟨closedFlow_of_verified hp₁ hv₁ hdelete,
      fun hclosed => verified_of_closedFlow hp₁ hv₁ hphis₁ ht₁ hclosed hdelete⟩
  exact ⟨hexact, fun hexcept => hexact.mpr (closedFlow_activeCode h.sound hv hexcept ha)⟩

end

/-! ## 8. Programs with dead code -/

/-- The blocks from which control goes to a block. -/
def predecessors (p : Program) (c : BlockId) : List BlockId :=
  ((List.range p.blocks.size).map BlockId.mk).filter fun b => (p.successorsOf b).contains c

theorem incoming_of_checked
    (hfrom : ∀ i < p.instrs.size, ∀ c ∈ (p.instr ⟨i⟩).parent.toList, (p.instr ⟨i⟩).isPhi = true →
      ∀ b ∈ (p.instr ⟨i⟩).phiBlocks, c ∈ p.successorsOf b)
    (hall : ∀ i < p.instrs.size, ∀ c ∈ (p.instr ⟨i⟩).parent.toList, (p.instr ⟨i⟩).isPhi = true →
      ∀ b ∈ predecessors p c, b ∈ (p.instr ⟨i⟩).phiBlocks) :
    ∀ i c, (p.instr i).parent = some c → (p.instr i).isPhi = true →
      ∀ b, b ∈ (p.instr i).phiBlocks ↔ c ∈ p.successorsOf b := by
  intro i c hc hphi b
  have hlt := instr_lt_of_parent hc
  have hmem : c ∈ (p.instr i).parent.toList := by simp [hc]
  refine ⟨hfrom i.index hlt c hmem hphi b, fun hsuccessor =>
    hall i.index hlt c hmem hphi b (List.mem_filter.mpr ⟨?_, List.contains_iff_mem.mpr hsuccessor⟩)⟩
  obtain ⟨j, hj, -⟩ := List.mem_flatMap.mp hsuccessor
  exact List.mem_map.mpr ⟨b.index, List.mem_range.mpr (block_lt_of_mem hj), rfl⟩

theorem acyclic_of_checked (h : ∀ x ∈ settledPhis p a, x.2.toInstr? = none) (i : InstrId) :
    ¬ TransGen (GivesWay p a) i i := by
  have hnone : ∀ j k, ¬ GivesWay p a j k := fun j k hjk => by cases h _ hjk
  intro hcycle
  cases hcycle with
  | single hstep => exact hnone _ _ hstep
  | tail _ hstep => exact hnone _ _ hstep

theorem deleteDeadCode_verified_detour : ∃ q : Program, (q.func ⟨0⟩).blocks = [⟨0⟩, ⟨2⟩] ∧
    (q.instr ⟨3⟩).erased = true ∧ q.verify = .ok () := by
  have ha : activeCode {} detour = .ok ⟨[⟨1⟩, ⟨0⟩], [⟨2⟩, ⟨3⟩, ⟨0⟩]⟩ := by rfl
  obtain ⟨n, q, hrun, hblocks, hgone⟩ := exists_ok
    (r := (replaceSettledPhis ⟨[⟨1⟩, ⟨0⟩], [⟨2⟩, ⟨3⟩, ⟨0⟩]⟩ >>= fun _ =>
      deleteDeadCode ⟨[⟨1⟩, ⟨0⟩], [⟨2⟩, ⟨3⟩, ⟨0⟩]⟩) detour)
    (P := fun q => (q.func ⟨0⟩).blocks = [⟨0⟩, ⟨2⟩] ∧ (q.instr ⟨3⟩).erased = true)
    (by decide +kernel)
  obtain ⟨k, p₁, hphis, hdelete⟩ := bind_ok hrun
  have hprepared : Prepared detour ⟨[⟨1⟩, ⟨0⟩], [⟨2⟩, ⟨3⟩, ⟨0⟩]⟩ :=
    ⟨by decide +kernel, by rfl, targetsOnly_detour,
      incoming_of_checked (by decide +kernel) (by decide +kernel), acyclic_of_checked (by decide +kernel)⟩
  exact ⟨q, hblocks, hgone,
    (deleteDeadCode_verified hprepared (by unfold PlainInputs; decide +kernel) ha hphis hdelete).2
      rfl⟩

/-- An entry point that invokes a declared function; only the invoke goes to the third block. -/
def unwinding : Program where
  name := "unwinding"
  functions := #[
    ⟨"g", .void, [], false, none, none, [], [], false⟩,
    ⟨"Main", .void, [], false, none, none, [.pair "EntryPoint" none], [⟨0⟩, ⟨1⟩, ⟨2⟩], false⟩]
  blocks := #[
    ⟨some "entry", some ⟨1⟩, [⟨0⟩], false⟩,
    ⟨some "next", some ⟨1⟩, [⟨1⟩], false⟩,
    ⟨some "failed", some ⟨1⟩, [⟨2⟩], false⟩]
  instrs := #[
    ⟨.invoke, .void, [.block ⟨1⟩, .block ⟨2⟩, .func ⟨0⟩], none, some ⟨0⟩, false⟩,
    ⟨.ret, .void, [], none, some ⟨1⟩, false⟩,
    ⟨.ret, .void, [], none, some ⟨2⟩, false⟩]

/-- Two phis with a dead edge each; the second one takes the first one inside a constant. -/
def nesting : Program where
  name := "nesting"
  functions := #[
    ⟨"Main", .int 64, [⟨some "p", .ptr (.int 8)⟩], false, none, none, [.pair "EntryPoint" none],
      [⟨0⟩, ⟨1⟩, ⟨2⟩, ⟨3⟩, ⟨4⟩], false⟩]
  blocks := #[
    ⟨some "entry", some ⟨0⟩, [⟨0⟩], false⟩,
    ⟨some "dead1", some ⟨0⟩, [⟨1⟩], false⟩,
    ⟨some "join1", some ⟨0⟩, [⟨2⟩, ⟨3⟩], false⟩,
    ⟨some "dead2", some ⟨0⟩, [⟨4⟩], false⟩,
    ⟨some "join2", some ⟨0⟩, [⟨5⟩, ⟨6⟩], false⟩]
  instrs := #[
    ⟨.br, .void, [.block ⟨2⟩], none, some ⟨0⟩, false⟩,
    ⟨.br, .void, [.block ⟨2⟩], none, some ⟨1⟩, false⟩,
    ⟨.phi [⟨0⟩, ⟨1⟩], .ptr (.int 8), [.arg ⟨0⟩ 0, .null (.ptr (.int 8))], some "a", some ⟨2⟩, false⟩,
    ⟨.br, .void, [.block ⟨4⟩], none, some ⟨2⟩, false⟩,
    ⟨.br, .void, [.block ⟨4⟩], none, some ⟨3⟩, false⟩,
    ⟨.phi [⟨2⟩, ⟨3⟩], .int 64, [.cast .ptrtoint (.instr ⟨2⟩) (.int 64), .int 64 0], some "b",
      some ⟨4⟩, false⟩,
    ⟨.ret, .void, [.instr ⟨5⟩], none, some ⟨4⟩, false⟩]

theorem targetsOnly_unwinding : unwinding.TargetsOnly := by
  refine targetsOnly_of_below (fun n hn b huses => ?_) (fun _ _ => rfl) (by decide)
  rcases n with _ | _ | _ | n
  case succ.succ.succ => exact absurd hn (Nat.not_lt.mpr (Nat.le_add_left 3 n))
  all_goals
    simp [unwinding, instr, Instr.uses, Value.mentions] at huses
  rcases huses with rfl | rfl <;> decide +kernel

theorem targetsOnly_nesting : nesting.TargetsOnly := by
  refine targetsOnly_of_below (fun n hn b huses => ?_) (fun _ _ => rfl) (by decide)
  rcases n with _ | _ | _ | _ | _ | _ | _ | n
  case succ.succ.succ.succ.succ.succ.succ =>
    exact absurd hn (Nat.not_lt.mpr (Nat.le_add_left 7 n))
  all_goals
    simp [nesting, instr, Instr.uses, Value.mentions] at huses
  all_goals
    subst huses
    decide

/-- The deletion of the dead code of a program that is prepared for it ends with these problems. -/
def EndsBroken (s : TransformSettings) (p : Program) (problems : List String) : Prop :=
  ∃ a, Prepared p a ∧ activeCode s p = .ok a ∧
    ∃ n q, (replaceSettledPhis a >>= fun _ => deleteDeadCode a) p = .ok n q ∧ q.problems = problems

/-- With exceptions ruled out, an active invoke keeps an emptied block; a phi inside a constant
    goes, and the constant still refers to it. -/
theorem deletion_leaves_broken :
    EndsBroken { assumeNoExcept := true, cloneFunctions := false } unwinding
      ["@Main: block %failed is empty"] ∧
    EndsBroken {} nesting ["@Main: <ret inst6> uses erased instruction inst2"] :=
  ⟨⟨⟨[⟨0⟩, ⟨1⟩], [⟨1⟩, ⟨0⟩]⟩,
      ⟨by decide +kernel, by rfl, targetsOnly_unwinding,
        incoming_of_checked (by decide +kernel) (by decide +kernel), acyclic_of_checked (by decide +kernel)⟩,
      by rfl, exists_ok (by decide +kernel)⟩,
    ⟨⟨[⟨0⟩], [⟨4⟩, ⟨2⟩, ⟨0⟩]⟩,
      ⟨by decide +kernel, by rfl, targetsOnly_nesting,
        incoming_of_checked (by decide +kernel) (by decide +kernel), acyclic_of_checked (by decide +kernel)⟩,
      by rfl, exists_ok (by decide +kernel)⟩⟩

end Transform

end QirProfile
