import QirProfile.Proofs.ControlFlow
import QirProfile.Proofs.Program.Shrinking
import QirProfile.Proofs.Transform.ActiveCode
import QirProfile.Transform.Basic

/-!
# Dead code is deleted exactly

What the search has found decides what is deleted: dead functions at once, dead blocks when nothing
refers to them any more. Here it is proved that the check for uses never holds a dead block back,
so that exactly the active code is left.
-/

namespace QirProfile

open Program

namespace Program

/-- Blocks are referred to as the targets of terminators only, and all instructions in blocks are
    instructions of live functions. -/
structure TargetsOnly (p : Program) : Prop where
  instrs : ∀ i b, (p.instr i).parent.isSome = true → (p.instr i).uses (.block b) = true →
    b ∈ (p.instr i).successors
  globals : ∀ g b, (p.global g).uses (.block b) = false
  placed : ∀ i b, (p.instr i).parent = some b →
    ∃ f, (p.func f).erased = false ∧ (p.block b).parent = some f

theorem targetsOnly_of_below {p : Program}
    (hinstrs : ∀ n < p.instrs.size, ∀ b, (p.instr ⟨n⟩).uses (.block b) = true →
      b ∈ (p.instr ⟨n⟩).successors)
    (hglobals : ∀ g b, (p.global g).uses (.block b) = false)
    (hplaced : ∀ n < p.instrs.size, ∀ b ∈ (p.instr ⟨n⟩).parent,
      ∃ f ∈ p.liveFunctions, (p.block b).parent = some f) : p.TargetsOnly := by
  refine ⟨fun i b hi huses => ?_, hglobals, fun i b hi => ?_⟩
  · obtain ⟨c, hc⟩ := Option.isSome_iff_exists.mp hi
    exact hinstrs i.index (instr_lt_of_parent hc) b huses
  · obtain ⟨f, hf, hparent⟩ := hplaced i.index (instr_lt_of_parent hi) b hi
    exact ⟨f, mem_liveFunctions.mp hf, hparent⟩

end Program

namespace Transform

variable {a : ActiveCode} {p q r : Program} {fs : List FuncId} {bs : List BlockId}

/-! ## 1. Emptied blocks and deleted functions -/

theorem keeps_emptyBlock {R : Program → Program → Prop} [IsPreorder Program R]
    (hR : ∀ p id ty, (p.instr id).erased = false →
      R p ((p.replaceUses (.instr id) (.undef ty)).dropInstr id)) (b : BlockId) :
    Keeps R (emptyBlock b) := by
  have heach : ∀ ids, Keeps R (eraseEach ids) := by
    intro ids
    induction ids with
    | nil => exact keeps_pure _
    | cons id ids ih =>
      intro p _ q h
      unfold eraseEach at h
      obtain ⟨_, p₁, h₁, h⟩ := bind_ok h
      obtain rfl := modify_ok h₁
      obtain ⟨_, p₂, h₂, h⟩ := bind_ok h
      obtain ⟨hlive, rfl⟩ := eraseInstr_ok.mp (attempt_ok.mp h₂)
      have hframe := sameFrame_replaceUses p (.instr id) (.undef (p.instr id).ty)
      exact trans_of R (hR _ _ _ ((hframe.instr id).2.symm.trans hlive)) (ih _ _ _ h)
  exact keeps_bind keeps_get fun p => heach _

theorem eraseEach_ok {ids : List InstrId} {u : Unit} (hp : p.Sound)
    (hids : ∀ id ∈ ids, ∀ b, (p.instr id).parent = some b → b ∈ bs)
    (h : eraseEach ids p = .ok u q) :
    Within fs bs p q ∧ ∀ id ∈ ids, (q.instr id).erased = true := by
  induction ids generalizing p with
  | nil =>
    cases h
    exact ⟨refl_of (Prunes fs bs) _ hp, nofun⟩
  | cons id ids ih =>
    unfold eraseEach at h
    obtain ⟨_, p₁, h₁, h⟩ := bind_ok h
    obtain ⟨_, p₂, h₂, h⟩ := bind_ok h
    obtain rfl := modify_ok h₁
    obtain ⟨hlive, rfl⟩ := eraseInstr_ok.mp (attempt_ok.mp h₂)
    have hframe := sameFrame_replaceUses p (.instr id) (.undef (p.instr id).ty)
    have hone : Within fs bs p _ := prunes_remove ((hframe.instr id).2.symm.trans hlive)
      (mentions_undef (p.instr id).ty) (.inr (hids id List.mem_cons_self)) hp
    obtain ⟨hrest, hall⟩ := ih hone.sound
      (fun i hi b hb => hids i (List.mem_cons_of_mem id hi) b (hone.shrinks.parent i b hb)) h
    refine ⟨hone.trans hrest, fun i hi => ?_⟩
    rcases List.mem_cons.mp hi with rfl | hi
    · refine hrest.shrinks.erased i ?_
      rw [instr_dropInstr_self (instr_lt_of_live hlive)]
    · exact hall i hi

theorem emptyBlock_ok {c : BlockId} (hc : c ∈ bs) {u : Unit} (hp : p.Sound)
    (h : emptyBlock c p = .ok u q) : Within fs bs p q ∧ (q.block c).instrs = [] := by
  unfold emptyBlock at h
  obtain ⟨_, _, h₁, h⟩ := bind_ok h
  obtain ⟨rfl, rfl⟩ := get_ok h₁
  have hids : ∀ id ∈ (p.block c).instrs.reverse, ∀ b, (p.instr id).parent = some b → b ∈ bs := by
    intro id hid b hb
    rw [hp.mem_instrs.mp (List.mem_reverse.mp hid)] at hb
    exact Option.some.inj hb ▸ hc
  obtain ⟨hwithin, hall⟩ : Within fs bs p q ∧ _ := eraseEach_ok hp hids h
  refine ⟨hwithin, List.eq_nil_iff_forall_not_mem.mpr fun i hi => ?_⟩
  have hold := (hwithin.shrinks.instrs c).subset hi
  have hlive := hwithin.sound.instr_live hi
  rw [hall i (List.mem_reverse.mpr hold)] at hlive
  cases hlive

theorem prunes_emptyBlock {c : BlockId} (hc : c ∈ bs) : Keeps (Prunes fs bs) (emptyBlock c) :=
  fun _ _ _ h hp => (emptyBlock_ok hc hp h).1

theorem prunes_emptyBlocks {cs : List BlockId} (hcs : cs ⊆ bs) :
    Keeps (Prunes fs bs) (cs.forM emptyBlock) :=
  sequential_keeps.forM_of_mem fun _ hc => prunes_emptyBlock (hcs hc)

theorem deleteFunction_ok {f : FuncId} {u : Unit} (hp : p.Sound) (hf : f ∈ fs)
    (hbs : (p.func f).blocks ⊆ bs) (h : deleteFunction f p = .ok u q) :
    Within fs bs p q ∧ (q.func f).erased = true := by
  unfold deleteFunction at h
  obtain ⟨_, p₁, h₁, h⟩ := bind_ok h
  obtain ⟨_, _, h₂, h⟩ := bind_ok h
  obtain ⟨rfl, rfl⟩ := get_ok h₂
  obtain ⟨_, p₂, h₃, h⟩ := bind_ok h
  have hundef : Within fs bs p p₁ := by
    rw [modify_ok h₁]
    exact prunes_undefine hf _ p hp
  have hblocks : (p₁.func f).blocks ⊆ bs :=
    List.Subset.trans (hundef.shrinks.blocks f).subset hbs
  have hempty : Within fs bs p₁ p₂ :=
    prunes_emptyBlocks (fun b hb => hblocks (List.mem_reverse.mp hb)) _ _ _ h₃ hundef.sound
  obtain ⟨hlive, rfl⟩ := (eraseFunction_ok hempty.sound).mp (attempt_ok.mp h)
  have hdrop : Within fs bs p₂ (p₂.dropFunction f) :=
    prunes_dropFunction hf (List.Subset.trans (hempty.shrinks.blocks f).subset hblocks) hempty.sound
  exact ⟨(hundef.trans hempty).trans hdrop, func_dropFunction_self hlive⟩

theorem deleteFunctions_ok {gs : List FuncId} {u : PUnit} (hp : p.Sound) (hgs : gs ⊆ fs)
    (hbs : ∀ f ∈ gs, (p.func f).blocks ⊆ bs) (h : gs.forM deleteFunction p = .ok u q) :
    Within fs bs p q ∧ ∀ f ∈ gs, (q.func f).erased = true := by
  induction gs generalizing p with
  | nil =>
    cases h
    exact ⟨refl_of (Prunes fs bs) _ hp, nofun⟩
  | cons f gs ih =>
    obtain ⟨hf, hgs⟩ := List.cons_subset.mp hgs
    obtain ⟨_, p₁, h₁, h⟩ := bind_ok h
    obtain ⟨hone, herased⟩ := deleteFunction_ok hp hf (hbs f List.mem_cons_self) h₁
    obtain ⟨hrest, hall⟩ := ih hone.sound hgs (fun g hg => List.Subset.trans
      (hone.shrinks.blocks g).subset (hbs g (List.mem_cons_of_mem f hg))) h
    refine ⟨hone.trans hrest, fun g hg => ?_⟩
    rcases List.mem_cons.mp hg with rfl | hg
    · exact hrest.shrinks.erasedFunc g herased
    · exact hall g hg

/-! ## 2. Cut edges and erased blocks -/

theorem keeps_cutEdges {R : Program → Program → Prop} [IsPreorder Program R] {c : BlockId}
    (hR : ∀ p id, R p (p.updateInstr id (forgetEntry · c))) : Keeps R (cutEdges c) := by
  unfold cutEdges
  refine keeps_bind keeps_get fun p => ?_
  split
  · exact keeps_pure _
  · exact sequential_keeps.forM (fun next p _ q h => cutEdge_keeps hR (attempt_ok.mp h)) _

theorem prunes_cutEdges (c : BlockId) : Keeps (Prunes fs bs) (cutEdges c) :=
  keeps_cutEdges fun p id => prunes_forgetEntry p id c

theorem keeps_eraseUnused {cs : List BlockId} (hcs : cs ⊆ bs) :
    Keeps (Prunes fs bs) (eraseUnused cs) := by
  induction cs with
  | nil => exact keeps_pure _
  | cons c cs ih =>
    obtain ⟨hc, hcs⟩ := List.cons_subset.mp hcs
    unfold eraseUnused
    refine keeps_bind keeps_get fun p => ?_
    split
    · exact ih hcs
    · refine keeps_bind (fun p _ q h => ?_) fun _ => keeps_bind (ih hcs) fun _ => keeps_pure _
      obtain ⟨hlive, rfl⟩ := eraseBlock_ok.mp (attempt_ok.mp h)
      exact prunes_dropBlock hlive hc

theorem eraseUnused_erases {cs : List BlockId} {n : Nat} (hp : p.Sound)
    (hunused : ∀ r, r.Sound → p.Shrinks r → ∀ b ∈ cs, r.hasUses (.block b) = false)
    (h : eraseUnused cs p = .ok n q) : ∀ b ∈ cs, ∀ f, b ∉ (q.func f).blocks := by
  induction cs generalizing p n with
  | nil => nofun
  | cons c cs ih =>
    unfold eraseUnused at h
    obtain ⟨_, _, h₁, h⟩ := bind_ok h
    obtain ⟨rfl, rfl⟩ := get_ok h₁
    rw [hunused p hp (.refl p) c List.mem_cons_self, if_neg Bool.false_ne_true] at h
    obtain ⟨_, p₁, h₂, h⟩ := bind_ok h
    obtain ⟨m, p₂, h₃, h⟩ := bind_ok h
    obtain ⟨-, rfl⟩ := pure_ok h
    obtain ⟨hlive, rfl⟩ := eraseBlock_ok.mp (attempt_ok.mp h₂)
    obtain ⟨hsound, hshrinks⟩ := trims_dropBlock hlive hp
    intro b hb f hmem
    rcases List.mem_cons.mp hb with rfl | hb
    · have hrest : Within [] cs _ p₂ := keeps_eraseUnused (List.Subset.refl cs) _ _ _ h₃ hsound
      have hparent := hsound.mem_blocks.mp ((hrest.shrinks.blocks f).subset hmem)
      rw [block_dropBlock_self (block_lt_of_live hlive)] at hparent
      cases hparent
    · exact ih hsound (fun r hr hs d hd => hunused r hr (hshrinks.trans hs) d
        (List.mem_cons_of_mem c hd)) h₃ b hb f hmem

/-! ## 3. Replaced phis -/

theorem settle_of_all {P : Value → Prop} {done : List (InstrId × Value)}
    (hdone : ∀ x ∈ done, P x.2) {v : Value} (hv : P v) : P (settle done v) := by
  unfold settle
  induction done generalizing v with
  | nil => exact hv
  | cons x done ih =>
    refine ih (fun y hy => hdone y (List.mem_cons_of_mem x hy)) ?_
    dsimp only
    split
    · exact hdone x List.mem_cons_self
    · exact hv

theorem replacePhis_ok {done rest : List (InstrId × Value)} {u : Unit} (hp : p.Sound)
    (hdone : ∀ x ∈ done, ∀ b, Value.mentions (.block b) x.2 = false)
    (hrest : ∀ x ∈ rest, (p.instr x.1).isPhi = true ∧ ∀ b, Value.mentions (.block b) x.2 = false)
    (h : replacePhis done rest p = .ok u q) : Within fs bs p q := by
  induction rest generalizing p done with
  | nil =>
    cases h
    exact refl_of (Prunes fs bs) _ hp
  | cons x rest ih =>
    obtain ⟨phi, w⟩ := x
    obtain ⟨hphi, hw⟩ := hrest (phi, w) List.mem_cons_self
    have hv := settle_of_all (P := fun v => ∀ b, Value.mentions (.block b) v = false) hdone hw
    unfold replacePhis at h
    obtain ⟨_, p₁, h₁, h⟩ := bind_ok h
    obtain ⟨_, p₂, h₂, h⟩ := bind_ok h
    obtain ⟨_, p₃, h₃, h⟩ := bind_ok h
    obtain rfl := modify_ok h₂
    obtain ⟨hlive, rfl⟩ := eraseInstr_ok.mp (attempt_ok.mp h₃)
    have hname : Within fs bs p p₁ := by
      have htake : ∀ target, Keeps (Prunes fs bs) (modify (·.takeName phi target) : Edit PUnit) := by
        intro target r _ r' hr
        rw [modify_ok hr]
        refine (trims_takeName r phi target).prunes (fun _ _ => rfl) (fun _ _ => rfl) fun i _ _ => ?_
        obtain ⟨_, hi⟩ := instr_takeName r phi target i
        rw [hi]
        exact .of_eq rfl rfl
      exact sequential_keeps.optionForM htake _ p _ p₁ h₁ hp
    have hframe := sameFrame_replaceUses p₁ (.instr phi) (settle done w)
    have hgone : Within fs bs p₁ _ := prunes_remove ((hframe.instr phi).2.symm.trans hlive) hv
      (.inl ((hname.shrinks.phi phi).trans hphi)) hname.sound
    have hone := hname.trans hgone
    refine hone.trans (ih hone.sound ?_ ?_ h)
    · intro y hy
      rcases List.mem_append.mp hy with hy | hy
      · exact hdone y hy
      · rw [List.mem_singleton.mp hy]
        exact hv
    · intro y hy
      obtain ⟨hyphi, hyv⟩ := hrest y (List.mem_cons_of_mem _ hy)
      exact ⟨(hone.shrinks.phi y.1).trans hyphi, hyv⟩

theorem activeInput?_some {i : Instr} {v : Value} (h : activeInput? a i = some v) :
    i.isPhi = true ∧ v ∈ i.operands := by
  unfold activeInput? at h
  split at h
  · rename_i b c v₁ v₂ hkind hoperands
    rw [hoperands]
    refine ⟨Instr.isPhi_iff.mpr ⟨_, hkind⟩, ?_⟩
    split at h <;> cases h <;> simp
  · cases h

theorem mem_settledPhis {phi : InstrId} {v : Value} : (phi, v) ∈ settledPhis p a ↔
    (∃ f, (p.func f).erased = false ∧ phi ∈ p.instrsOf f) ∧
      activeInput? a (p.instr phi) = some v := by
  unfold settledPhis
  rw [List.mem_filterMap]
  constructor
  · rintro ⟨id, hid, hx⟩
    obtain ⟨w, hw, heq⟩ := Option.map_eq_some_iff.mp hx
    cases heq
    obtain ⟨f, hf, hif⟩ := List.mem_flatMap.mp hid
    exact ⟨⟨f, mem_liveFunctions.mp hf, hif⟩, hw⟩
  · rintro ⟨⟨f, hf, hif⟩, hv⟩
    exact ⟨phi, List.mem_flatMap.mpr ⟨f, mem_liveFunctions.mpr hf, hif⟩,
      Option.map_eq_some_iff.mpr ⟨v, hv, rfl⟩⟩

theorem settledPhis_blocks (hp : p.Sound) (ht : p.TargetsOnly) :
    ∀ x ∈ settledPhis p a, (p.instr x.1).isPhi = true ∧
      ∀ b, Value.mentions (.block b) x.2 = false := by
  rintro ⟨id, v⟩ hx
  obtain ⟨⟨f, -, hif⟩, hv⟩ := mem_settledPhis.mp hx
  obtain ⟨hphi, hmem⟩ := activeInput?_some hv
  refine ⟨hphi, fun b => Bool.eq_false_iff.mpr fun hmentions => ?_⟩
  obtain ⟨c, -, hic⟩ := List.mem_flatMap.mp hif
  have hparent : (p.instr id).parent.isSome = true := by
    rw [hp.mem_instrs.mp hic]
    rfl
  have hsuccessor := ht.instrs id b hparent (Instr.uses_iff.mpr ⟨v, hmem, hmentions⟩)
  -- a phi goes nowhere
  obtain ⟨incoming, hkind⟩ := Instr.isPhi_iff.mp hphi
  unfold Instr.successors at hsuccessor
  rw [hkind] at hsuccessor
  cases hsuccessor

theorem replaceSettledPhis_ok {n : Nat} (hp : p.Sound) (ht : p.TargetsOnly)
    (h : replaceSettledPhis a p = .ok n q) : Within fs bs p q := by
  unfold replaceSettledPhis at h
  obtain ⟨_, _, h₁, h⟩ := bind_ok h
  obtain ⟨rfl, rfl⟩ := get_ok h₁
  obtain ⟨_, p₁, h₂, h⟩ := bind_ok h
  obtain ⟨-, rfl⟩ := pure_ok h
  exact replacePhis_ok hp (fun _ hx => absurd hx List.not_mem_nil) (settledPhis_blocks hp ht) h₂

/-! ## 4. Nothing refers to a dead block -/

theorem mem_deadFunctions {f : FuncId} : f ∈ deadFunctions p a ↔
    (p.func f).erased = false ∧ f ∉ a.functions ∧ (p.func f).isDeclaration = false := by
  unfold deadFunctions
  rw [List.mem_filter, mem_liveFunctions]
  simp

theorem mem_deadBlocks {b : BlockId} : b ∈ deadBlocks p a ↔
    ∃ f, (p.func f).erased = false ∧ f ∈ a.functions ∧ b ∈ (p.func f).blocks ∧ b ∉ a.blocks := by
  unfold deadBlocks
  simp only [List.mem_flatMap, List.mem_filter, mem_liveFunctions]
  simp [and_assoc]

/-- In active functions, control goes from active blocks to active blocks. -/
def ClosedFlow (p : Program) (a : ActiveCode) : Prop :=
  ∀ f ∈ a.functions, (p.func f).erased = false → ∀ b ∈ (p.func f).blocks, b ∈ a.blocks →
    ∀ c ∈ p.successorsOf b, c ∈ a.blocks

section

variable (hp : p.Sound) (hv : p.Verified)

include hp hv

theorem closedFlow_of_active {attr : String}
    (hblocks : ∀ b, b ∈ a.blocks ↔ p.Active attr (.block b)) : ClosedFlow p a :=
  fun _ _ _ b _ hb c hc => (hblocks c).mpr (((hblocks b).mp hb).successor hp hv hc)

theorem unused_of_empty (ht : p.TargetsOnly) (hclosed : ClosedFlow p a) (hr : r.Sound)
    (hs : p.Shrinks r) (hempty : ∀ c ∈ deadBlocks p a, (r.block c).instrs = []) {b : BlockId}
    (hb : b ∈ deadBlocks p a) : r.hasUses (.block b) = false := by
  refine Bool.eq_false_iff.mpr fun huses => ?_
  obtain ⟨f, hf, hactive, hlisted, hdead⟩ := mem_deadBlocks.mp hb
  rcases hasUses_iff.mp huses with ⟨i, -, hattached, hi⟩ | ⟨g, hg⟩
  · obtain ⟨c, hc⟩ := Option.isSome_iff_exists.mp hattached
    have hold := hs.parent i c hc
    have hmem := hp.mem_instrs.mpr hold
    have hsuccessor := ht.instrs i b (by rw [hold]; rfl) (hs.uses i b hi)
    obtain ⟨g, hg, hcg⟩ := ht.placed i c hold
    have hclisted := hp.mem_blocks.mpr hcg
    have hfits := (hv g hg c hclisted).instrs i hmem
    have hparent : (p.block b).parent = some g :=
      operandProblem?_block (hfits.operands _ (Instr.mem_of_successors hsuccessor))
    rw [hp.mem_blocks.mp hlisted, Option.some_inj] at hparent
    subst hparent
    -- `c` is dead, or else `b` would be active
    have hcdead : c ∉ a.blocks := fun hcactive => hdead
      (hclosed f hactive hf c hclisted hcactive b (List.mem_flatMap.mpr ⟨i, hmem, hsuccessor⟩))
    have hnone := hempty c (mem_deadBlocks.mpr ⟨f, hf, hactive, hclisted, hcdead⟩)
    have hstill := hr.mem_instrs.mpr hc
    rw [hnone] at hstill
    cases hstill
  · have := hs.globals g b hg
    rw [ht.globals g b] at this
    cases this

end

/-! ## 5. The steps of a deletion -/

/-- A step of a deletion in which the functions `F` go. -/
inductive Deletes (F : FuncId → Prop) (p : Program) : Program → Prop
  | remove {id : InstrId} (ty : Ty) (hlive : (p.instr id).erased = false) :
      Deletes F p ((p.replaceUses (.instr id) (.undef ty)).dropInstr id)
  | undefine {f : FuncId} (ty : Ty) (hf : F f) :
      Deletes F p (p.replaceUses (.func f) (.undef ty))
  | forgetEntry (id : InstrId) (source : BlockId) :
      Deletes F p (p.updateInstr id (Program.forgetEntry · source))
  | dropBlock {b : BlockId} (hlive : (p.block b).erased = false)
      (hunused : p.hasUses (.block b) = false) : Deletes F p (p.dropBlock b)
  | eraseFunction {f : FuncId} {q : Program} (hf : F f) (h : p.eraseFunction f = .ok q) :
      Deletes F p q

section

variable {F : FuncId → Prop} {R : Program → Program → Prop} [IsPreorder Program R]
  (hR : ∀ p q, Deletes F p q → R p q)

include hR

theorem emptyBlock_steps (b : BlockId) : Keeps R (emptyBlock b) :=
  keeps_emptyBlock (fun p _ ty hlive => hR p _ (.remove ty hlive)) b

theorem deleteFunction_steps {f : FuncId} (hf : F f) : Keeps R (deleteFunction f) := by
  unfold deleteFunction
  refine keeps_bind (fun p _ q h => ?_) fun _ => keeps_bind keeps_get fun _ =>
    keeps_bind (sequential_keeps.forM (emptyBlock_steps hR) _) fun _ p _ q h => ?_
  · rw [modify_ok h]
    exact hR _ _ (.undefine _ hf)
  · exact hR _ _ (.eraseFunction hf (attempt_ok.mp h))

theorem cutEdges_steps (b : BlockId) : Keeps R (cutEdges b) :=
  keeps_cutEdges fun p id => hR p _ (.forgetEntry id b)

theorem eraseUnused_steps (bs : List BlockId) : Keeps R (eraseUnused bs) := by
  induction bs with
  | nil => exact keeps_pure _
  | cons b bs ih =>
    intro p n q h
    unfold eraseUnused at h
    obtain ⟨_, _, h₁, h⟩ := bind_ok h
    obtain ⟨rfl, rfl⟩ := get_ok h₁
    split at h
    · exact ih _ _ _ h
    · rename_i hunused
      obtain ⟨_, p₁, h₂, h⟩ := bind_ok h
      obtain ⟨m, p₂, h₃, h⟩ := bind_ok h
      obtain ⟨-, rfl⟩ := pure_ok h
      obtain ⟨hlive, rfl⟩ := eraseBlock_ok.mp (attempt_ok.mp h₂)
      exact trans_of R (hR _ _ (.dropBlock hlive (Bool.not_eq_true _ ▸ hunused))) (ih _ _ _ h₃)

end

theorem deleteDeadCode_parts {n : Nat × Nat} (h : deleteDeadCode a p = .ok n q) :
    ∃ u₁ p₁ u₂ p₂ u₃ p₃ m, (deadFunctions p a).forM deleteFunction p = .ok u₁ p₁ ∧
      (deadBlocks p a).forM cutEdges p₁ = .ok u₂ p₂ ∧
      (deadBlocks p a).reverse.forM emptyBlock p₂ = .ok u₃ p₃ ∧
      eraseUnused (deadBlocks p a) p₃ = .ok m q := by
  unfold deleteDeadCode at h
  obtain ⟨_, _, h₁, h⟩ := bind_ok h
  obtain ⟨rfl, rfl⟩ := get_ok h₁
  obtain ⟨u₁, p₁, hfunctions, h⟩ := bind_ok h
  obtain ⟨u₂, p₂, hedges, h⟩ := bind_ok h
  obtain ⟨u₃, p₃, hempty, h⟩ := bind_ok h
  obtain ⟨m, p₄, herase, h⟩ := bind_ok h
  obtain ⟨-, rfl⟩ := pure_ok h
  exact ⟨u₁, p₁, u₂, p₂, u₃, p₃, m, hfunctions, hedges, hempty, herase⟩

theorem deleteDeadCode_steps {R : Program → Program → Prop} [IsPreorder Program R] {n : Nat × Nat}
    (hR : ∀ q r, Deletes (· ∈ deadFunctions p a) q r → R q r) (h : deleteDeadCode a p = .ok n q) :
    R p q := by
  obtain ⟨_, p₁, _, p₂, _, p₃, m, hfunctions, hedges, hempty, herase⟩ := deleteDeadCode_parts h
  have hone : R p p₁ :=
    sequential_keeps.forM_of_mem (fun _ hf => deleteFunction_steps hR hf) _ _ _ hfunctions
  have htwo : R p₁ p₂ := sequential_keeps.forM (cutEdges_steps hR) _ _ _ _ hedges
  have hthree : R p₂ p₃ := sequential_keeps.forM (emptyBlock_steps hR) _ _ _ _ hempty
  exact trans_of R hone (trans_of R htwo (trans_of R hthree (eraseUnused_steps hR _ _ _ _ herase)))

/-! ## 6. What is left -/

/-- A sound program loses parts, and what is left of its instructions keeps its name. -/
def KeepsNames (p q : Program) : Prop :=
  p.Sound → q.Sound ∧ ∀ i, (q.instr i).erased = false →
    (p.instr i).erased = false ∧ (q.instr i).name = (p.instr i).name

instance : IsPreorder Program KeepsNames where
  refl _ h := ⟨h, fun _ hi => ⟨hi, rfl⟩⟩
  trans _ _ _ h₁ h₂ h := by
    obtain ⟨hq, hpq⟩ := h₁ h
    obtain ⟨hr, hqr⟩ := h₂ hq
    exact ⟨hr, fun i hi => ⟨(hpq i (hqr i hi).1).1, (hqr i hi).2.trans (hpq i (hqr i hi).1).2⟩⟩

theorem keepsNames_of_trims (h : p.Trims q)
    (hname : ∀ i, (q.instr i).erased = false → (q.instr i).name = (p.instr i).name) :
    KeepsNames p q := by
  intro hp
  obtain ⟨hq, hs⟩ := h hp
  exact ⟨hq, fun i hi => ⟨hs.live i hi, hname i hi⟩⟩

theorem name_replaceUses (p : Program) (old new : Value) (i : InstrId) :
    ((p.replaceUses old new).instr i).name = (p.instr i).name := by
  rw [instr_replaceUses]
  split <;> rfl

theorem Deletes.keepsNames {F : FuncId → Prop} (h : Deletes F p q) : KeepsNames p q := by
  have hundef : ∀ (old : Value) ty, KeepsNames p (p.replaceUses old (.undef ty)) := fun old ty =>
    keepsNames_of_trims (trims_replaceUses (fun b => mentions_undef ty b) p) fun i _ =>
      name_replaceUses p old _ i
  cases h with
  | @remove id ty hlive =>
    have hlive' := ((sameFrame_replaceUses p (.instr id) (.undef ty)).instr id).2.trans hlive
    refine trans_of KeepsNames (hundef (.instr id) ty)
      (keepsNames_of_trims (trims_dropInstr hlive') fun i hi => ?_)
    by_cases he : id = i
    · subst he
      rw [instr_dropInstr_self (instr_lt_of_live hlive')] at hi
      cases hi
    · rw [instr_dropInstr_ne he]
  | @undefine f ty => exact hundef (.func f) ty
  | forgetEntry id source =>
    refine keepsNames_of_trims (trims_forgetEntry p id source) fun i _ => ?_
    rw [instr_updateInstr]
    split
    · unfold Program.forgetEntry
      split <;> rfl
    · rfl
  | @dropBlock b hlive =>
    refine keepsNames_of_trims (trims_dropBlock hlive) fun i _ => ?_
    obtain ⟨_, _, he⟩ := same_dropBlock p b i
    rw [he]
  | @eraseFunction f _ _ herase =>
    intro hp
    obtain ⟨-, rfl⟩ := (eraseFunction_ok hp).mp herase
    refine keepsNames_of_trims (trims_dropFunction f) (fun i _ => ?_) hp
    obtain ⟨_, _, he⟩ := same_dropFunction p f i
    rw [he]

theorem removeDeadCode_parts {s : TransformSettings} {stats stats' : TransformStatistics}
    (h : removeDeadCode s stats p = .ok stats' q) : ∃ a phis p₁ n, activeCode s p = .ok a ∧
      replaceSettledPhis a p = .ok phis p₁ ∧ deleteDeadCode a p₁ = .ok n q := by
  unfold removeDeadCode at h
  obtain ⟨_, _, hget, h⟩ := bind_ok h
  obtain ⟨rfl, rfl⟩ := get_ok hget
  cases hactive : activeCode s p with
  | error e =>
    rw [hactive] at h
    cases h
  | ok a =>
    rw [hactive] at h
    obtain ⟨phis, p₁, hphis, h⟩ := bind_ok h
    obtain ⟨n, p₂, hdelete, h⟩ := bind_ok h
    obtain ⟨-, rfl⟩ := pure_ok h
    exact ⟨a, phis, p₁, n, rfl, compileEdit_ok.mp hphis, compileEdit_ok.mp hdelete⟩

theorem emptyBlocks_ok {cs : List BlockId} {u : PUnit} (hp : p.Sound)
    (h : cs.forM emptyBlock p = .ok u q) : ∀ c ∈ cs, (q.block c).instrs = [] := by
  intro c hc
  have htrims : ∀ d, Keeps Trims (emptyBlock d) := by
    intro d r _ r' hd
    have hprunes : Prunes [] [d] r r' := prunes_emptyBlock (List.mem_singleton_self d) _ _ _ hd
    exact hprunes.trims
  obtain ⟨r, r', _, hr, hc, hr'⟩ := forM_reaches htrims h hc
  obtain ⟨hwithin, hnone⟩ : Within [] [c] r r' ∧ _ :=
    emptyBlock_ok (List.mem_singleton_self c) (hr hp).1 hc
  have hlater := (hr' hwithin.sound).2.instrs c
  rw [hnone] at hlater
  exact List.sublist_nil.mp hlater

/-- The blocks that a deletion may touch. -/
def prunedBlocks (p : Program) (a : ActiveCode) : List BlockId :=
  (deadFunctions p a).flatMap (fun f => (p.func f).blocks) ++ deadBlocks p a

theorem deleteDeadCode_ok {n : Nat × Nat} (hp : p.Sound) (h : deleteDeadCode a p = .ok n q) :
    Within (deadFunctions p a) (prunedBlocks p a) p q ∧
      (∀ f ∈ deadFunctions p a, (q.func f).erased = true) ∧
      ((∀ r, r.Sound → p.Shrinks r → (∀ c ∈ deadBlocks p a, (r.block c).instrs = []) →
        ∀ b ∈ deadBlocks p a, r.hasUses (.block b) = false) →
      ∀ b ∈ deadBlocks p a, ∀ f, b ∉ (q.func f).blocks) := by
  obtain ⟨_, p₁, _, p₂, _, p₃, m, hfunctions, hedges, hempty, herase⟩ := deleteDeadCode_parts h
  have hsub : deadBlocks p a ⊆ prunedBlocks p a := List.subset_append_right _ _
  have hbodies : ∀ f ∈ deadFunctions p a, (p.func f).blocks ⊆ prunedBlocks p a :=
    fun f hf b hb => List.mem_append_left _ (List.mem_flatMap.mpr ⟨f, hf, hb⟩)
  obtain ⟨hone, herased⟩ := deleteFunctions_ok hp (List.Subset.refl _) hbodies hfunctions
  have htwo : Within (deadFunctions p a) (prunedBlocks p a) p₁ p₂ :=
    sequential_keeps.forM prunes_cutEdges _ _ _ _ hedges hone.sound
  have hthree : Within (deadFunctions p a) (prunedBlocks p a) p₂ p₃ :=
    prunes_emptyBlocks (fun b hb => hsub (List.mem_reverse.mp hb)) _ _ _ hempty htwo.sound
  have hfour : Within (deadFunctions p a) (prunedBlocks p a) p₃ q :=
    keeps_eraseUnused hsub _ _ _ herase hthree.sound
  have hempties := emptyBlocks_ok htwo.sound hempty
  have hbefore := (hone.trans htwo).trans hthree
  refine ⟨hbefore.trans hfour, fun f hf => ?_, fun hunused =>
    eraseUnused_erases hthree.sound (fun r hr hs => ?_) herase⟩
  · exact ((htwo.trans hthree).trans hfour).shrinks.erasedFunc f (herased f hf)
  · refine hunused r hr (hbefore.shrinks.trans hs) fun c hc => ?_
    have hlater := hs.instrs c
    rw [hempties c (List.mem_reverse.mpr hc)] at hlater
    exact List.sublist_nil.mp hlater

theorem deletion_congr {b : ActiveCode} (hfunctions : ∀ f, f ∈ a.functions ↔ f ∈ b.functions)
    (hblocks : ∀ c, c ∈ a.blocks ↔ c ∈ b.blocks) :
    replaceSettledPhis a = replaceSettledPhis b ∧ deleteDeadCode a = deleteDeadCode b := by
  have hf : ∀ f, a.functions.contains f = b.functions.contains f := fun f => by simp [hfunctions]
  have hb : ∀ c, a.blocks.contains c = b.blocks.contains c := fun c => by simp [hblocks]
  constructor
  · unfold replaceSettledPhis settledPhis activeInput?
    simp only [hb]
  · unfold deleteDeadCode deadFunctions deadBlocks
    rw [funext hf]
    simp only [hb]

/-- From `p` to `q` all dead code goes, and nothing of active code and declarations. -/
structure Clears (attr : String) (fs : List FuncId) (bs : List BlockId) (p q : Program) : Prop where
  within : Within fs bs p q
  active : ∀ f, p.Active attr (.func f) → f ∉ fs
  declared : ∀ f, (p.func f).isDeclaration = true → f ∉ fs
  spared : ∀ b, p.Active attr (.block b) → b ∉ bs
  erased : ∀ f ∈ fs, (q.func f).erased = true
  gone : ∀ f, (p.func f).isDeclaration = false → ¬ p.Active attr (.func f) →
    (q.func f).erased = true
  cut : ∀ f, p.Active attr (.func f) → ∀ b ∈ (p.func f).blocks, ¬ p.Active attr (.block b) →
    b ∉ (q.func f).blocks

section

variable {s : TransformSettings} {p₁ : Program} {n : Nat × Nat} (hp : p.Sound) (hv : p.Verified)
  (ht : p.TargetsOnly) (hexcept : s.assumeNoExcept = false) (hdepth : 1 ≤ s.maxRecursion)
  (ha : activeCode s p = .ok a)

include hp hv ht hexcept hdepth ha

theorem clears_deleteDeadCode (hphis : ∀ fs bs, Within fs bs p p₁)
    (h : deleteDeadCode a p₁ = .ok n q) : ∃ fs bs, Clears s.entryPointAttr fs bs p q := by
  obtain ⟨hfunctions, hblocks⟩ := mem_activeCode hp hv hexcept hdepth ha
  have herased : ∀ f, (p₁.func f).erased = (p.func f).erased := fun f =>
    (hphis [] []).func f List.not_mem_nil
  have hlisted : ∀ f, (p₁.func f).blocks = (p.func f).blocks := fun f =>
    ((hphis [] []).blocks hp (fun _ _ _ => List.not_mem_nil)
      fun _ _ hk => by cases hk).trans (List.filter_true _)
  have hdead : ∀ b, b ∈ deadBlocks p₁ a ↔ b ∈ deadBlocks p a := by
    intro b
    simp only [mem_deadBlocks, herased, hlisted]
  obtain ⟨hwithin, hgone, hcut⟩ := deleteDeadCode_ok (hphis [] []).sound h
  have hcut := hcut fun r hr hs hempty b hb => unused_of_empty hp hv ht
    (closedFlow_of_active hp hv hblocks) hr ((hphis [] []).shrinks.trans hs)
    (fun c hc => hempty c ((hdead c).mpr hc)) ((hdead b).mp hb)
  have halive : ∀ f, p.Active s.entryPointAttr (.func f) → f ∉ deadFunctions p₁ a :=
    fun f hf hmem => (mem_deadFunctions.mp hmem).2.1 ((hfunctions f).mpr hf)
  refine ⟨_, _, (hphis _ _).trans hwithin, halive, ?_, ?_, hgone, ?_, ?_⟩
  · intro f hdeclared hmem
    have hdefined := (mem_deadFunctions.mp hmem).2.2
    rw [Func.isDeclaration, hlisted] at hdefined
    exact Bool.eq_false_iff.mp hdefined hdeclared
  · intro b hb hmem
    obtain ⟨f, hf, hbf⟩ := hb.listed hp hv
    rcases List.mem_append.mp hmem with hmem | hmem
    · obtain ⟨g, hg, hbg⟩ := List.mem_flatMap.mp hmem
      rw [hlisted, hp.mem_blocks, hp.mem_blocks.mp hbf, Option.some_inj] at hbg
      exact halive f hf (hbg ▸ hg)
    · obtain ⟨-, -, -, -, hnot⟩ := mem_deadBlocks.mp hmem
      exact hnot ((hblocks b).mpr hb)
  · intro f hdefined hnot
    cases hlive : (p₁.func f).erased with
    | true => exact hwithin.shrinks.erasedFunc f hlive
    | false =>
      refine hgone f (mem_deadFunctions.mpr ⟨hlive, fun hmem => hnot ((hfunctions f).mp hmem), ?_⟩)
      rwa [Func.isDeclaration, hlisted]
  · intro f hf b hb hnot
    refine hcut b ((hdead b).mpr (mem_deadBlocks.mpr ⟨f, hf.live, (hfunctions f).mpr hf, hb, ?_⟩)) f
    exact fun hmem => hnot ((hblocks b).mp hmem)

end

open Classical in
/-- The active ones of the blocks of a function, in order. -/
noncomputable def activeBlocks (attr : String) (p : Program) (f : FuncId) : List BlockId :=
  (p.func f).blocks.filter fun b => p.Active attr (.block b)

/-- `q` is what is left of `p` when all but its active code is deleted: the active functions with
    their active blocks, these with all that is no phi, and the declarations. An instruction that is
    no phi keeps what it is, its type and its operands, but for those that mention what has gone. -/
structure ActiveLeft (attr : String) (p q : Program) : Prop where
  functions : ∀ f, ((q.func f).erased = false ∧ (q.func f).isDeclaration = false) ↔
    p.Active attr (.func f) ∧ (p.func f).isDeclaration = false
  blocks : ∀ f, p.Active attr (.func f) →
    q.func f = { p.func f with blocks := activeBlocks attr p f }
  instrs : ∀ b, p.Active attr (.block b) → q.plainInstrs b = p.plainInstrs b ∧
    ∀ i ∈ p.plainInstrs b, (q.instr i).kind = (p.instr i).kind ∧
      Remains (fun f => (q.func f).erased = true) q (p.instr i) (q.instr i)
  declarations : ∀ f, (p.func f).erased = false → (p.func f).isDeclaration = true →
    q.func f = p.func f

theorem isDeclaration_of_shrinks (h : p.Shrinks q) {f : FuncId}
    (hf : (p.func f).isDeclaration = true) : (q.func f).blocks = (p.func f).blocks := by
  have hnone := List.isEmpty_iff.mp hf
  have hsub := h.blocks f
  rw [hnone] at hsub ⊢
  exact List.sublist_nil.mp hsub

theorem Clears.activeLeft {attr : String} (hp : p.Sound) (h : Clears attr fs bs p q) :
    ActiveLeft attr p q := by
  classical
  have hkept : ∀ f, p.Active attr (.func f) →
      q.func f = { p.func f with blocks := activeBlocks attr p f } := by
    intro f hf
    have hblocks : (q.func f).blocks = activeBlocks attr p f :=
      h.within.blocks hp (fun b _ hk => h.spared b (of_decide_eq_true hk))
        fun b hb hk => h.cut f hf b hb (of_decide_eq_false hk)
    rw [h.within.shrinks.func f, h.within.func f (h.active f hf), hblocks]
  refine ⟨fun f => ⟨?_, ?_⟩, hkept, fun b hb => ?_, fun f hf hdeclared => ?_⟩
  · rintro ⟨hlive, hdefined⟩
    have hbefore : (p.func f).isDeclaration = false := by
      refine Bool.eq_false_iff.mpr fun hdeclared => ?_
      rw [Func.isDeclaration, isDeclaration_of_shrinks h.within.shrinks hdeclared] at hdefined
      exact Bool.eq_false_iff.mp hdefined hdeclared
    refine ⟨?_, hbefore⟩
    by_contra hnot
    rw [h.gone f hbefore hnot] at hlive
    cases hlive
  · rintro ⟨hf, hdefined⟩
    rw [hkept f hf]
    refine ⟨hf.live, Bool.eq_false_iff.mpr fun hdeclared => ?_⟩
    cases hentry : (p.func f).entryBlock? with
    | none =>
      rw [Func.isDeclaration, List.head?_eq_none_iff.mp hentry] at hdefined
      cases hdefined
    | some b =>
      -- the entry is active, so the function keeps it
      have hnone := List.filter_eq_nil_iff.mp (List.isEmpty_iff.mp hdeclared) b
        (List.mem_of_head? hentry)
      exact hnone (decide_eq_true (.entry hf hentry))
  · have hkept := (h.within.block b (h.spared b hb)).2
    refine ⟨hkept, fun i hi => ?_⟩
    have hplain : (p.instr i).isPhi = false := by simpa using (List.mem_filter.mp hi).2
    have hlive := h.within.sound.instr_live (List.mem_filter.mp (hkept ▸ hi)).1
    exact ⟨h.within.shrinks.kind i hplain, (h.within.plain i hlive hplain).mono h.erased (.refl q)⟩
  · rw [h.within.shrinks.func f, h.within.func f (h.declared f hdeclared),
      isDeclaration_of_shrinks h.within.shrinks hdeclared]

/-- The search finds the active code, and just that is left, the same for every limit of at least
    one. That only terminators refer to blocks is not enough: `TargetsOnly` asks that blocks occur
    only where control goes to, that no global refers to one, and that instructions in blocks stand
    in live functions. -/
theorem deleteDeadCode_exact {s : TransformSettings} {p₁ : Program} {n : Nat × Nat} (hp : p.Sound)
    (hv : p.verify = .ok ()) (ht : p.TargetsOnly) (hexcept : s.assumeNoExcept = false)
    (hdepth : 1 ≤ s.maxRecursion) (ha : activeCode s p = .ok a)
    (hphis : p₁ = p ∨ ∃ k, replaceSettledPhis a p = .ok k p₁)
    (h : deleteDeadCode a p₁ = .ok n q) :
    (∀ f, f ∈ a.functions ↔ p.Active s.entryPointAttr (.func f)) ∧
    (∀ b, b ∈ a.blocks ↔ p.Active s.entryPointAttr (.block b)) ∧
    ActiveLeft s.entryPointAttr p q ∧
    (∀ i, (q.instr i).erased = false → (q.instr i).name = (p₁.instr i).name) ∧
    ∀ m, 1 ≤ m → ∃ a', activeCode { s with maxRecursion := m } p = .ok a' ∧
      replaceSettledPhis a' = replaceSettledPhis a ∧ deleteDeadCode a' = deleteDeadCode a := by
  have hv := verify_ok.mp hv
  obtain ⟨hfunctions, hblocks⟩ := mem_activeCode hp hv hexcept hdepth ha
  have hfirst : ∀ fs bs, Within fs bs p p₁ := by
    intro fs bs
    rcases hphis with rfl | ⟨k, hk⟩
    · exact refl_of (Prunes fs bs) _ hp
    · exact replaceSettledPhis_ok hp ht hk
  refine ⟨hfunctions, hblocks, ?_, fun i hi => ?_, fun m hm => ?_⟩
  · obtain ⟨fs, bs, hclears⟩ := clears_deleteDeadCode hp hv ht hexcept hdepth ha hfirst h
    exact hclears.activeLeft hp
  · have hnames : KeepsNames p₁ q := deleteDeadCode_steps (fun _ _ => Deletes.keepsNames) h
    exact ((hnames (hfirst [] []).sound).2 i hi).2
  · have hplain := (activeCode_ok hp hv hexcept hdepth).mp ⟨a, ha⟩
    obtain ⟨a', ha'⟩ := (activeCode_ok (s := { s with maxRecursion := m }) hp hv hexcept hm).mpr hplain
    obtain ⟨hfunctions', hblocks'⟩ :=
      mem_activeCode (s := { s with maxRecursion := m }) hp hv hexcept hm ha'
    exact ⟨a', ha', deletion_congr (fun f => (hfunctions' f).trans (hfunctions f).symm)
      fun b => (hblocks' b).trans (hblocks b).symm⟩

/-! ## 7. A program with dead code -/

/-- An entry point whose block `⟨1⟩` is not reached, with a phi for it; a function it calls, one that
    nothing calls, and a declaration. -/
def detour : Program where
  name := "detour"
  functions := #[
    ⟨"Main", .int 64, [], false, none, none, [.pair "EntryPoint" none], [⟨0⟩, ⟨1⟩, ⟨2⟩], false⟩,
    ⟨"helper", .void, [], false, none, none, [], [⟨3⟩], false⟩,
    ⟨"unused", .void, [], false, none, none, [], [⟨4⟩], false⟩,
    ⟨"external", .void, [], false, none, none, [], [], false⟩]
  blocks := #[
    ⟨some "entry", some ⟨0⟩, [⟨0⟩, ⟨1⟩], false⟩,
    ⟨some "detour", some ⟨0⟩, [⟨2⟩], false⟩,
    ⟨some "exit", some ⟨0⟩, [⟨3⟩, ⟨4⟩], false⟩,
    ⟨some "entry", some ⟨1⟩, [⟨5⟩], false⟩,
    ⟨some "entry", some ⟨2⟩, [⟨6⟩, ⟨7⟩], false⟩]
  instrs := #[
    ⟨.call .none, .void, [.func ⟨1⟩], none, some ⟨0⟩, false⟩,
    ⟨.br, .void, [.block ⟨2⟩], none, some ⟨0⟩, false⟩,
    ⟨.br, .void, [.block ⟨2⟩], none, some ⟨1⟩, false⟩,
    ⟨.phi [⟨0⟩, ⟨1⟩], .int 64, [.int 64 1, .int 64 2], some "x", some ⟨2⟩, false⟩,
    ⟨.ret, .void, [.instr ⟨3⟩], none, some ⟨2⟩, false⟩,
    ⟨.ret, .void, [], none, some ⟨3⟩, false⟩,
    ⟨.call .none, .void, [.func ⟨3⟩], none, some ⟨4⟩, false⟩,
    ⟨.ret, .void, [], none, some ⟨4⟩, false⟩]

theorem targetsOnly_detour : detour.TargetsOnly := by
  refine targetsOnly_of_below (fun n hn b huses => ?_) (fun _ _ => rfl) (by decide)
  rcases n with _ | _ | _ | _ | _ | _ | _ | _ | n
  case succ.succ.succ.succ.succ.succ.succ.succ =>
    exact absurd hn (Nat.not_lt.mpr (Nat.le_add_left 8 n))
  all_goals
    simp [detour, instr, Instr.uses, Value.mentions] at huses
  all_goals
    subst huses
    decide

theorem deleteDeadCode_exact_detour : ∃ q, (q.func ⟨2⟩).erased = true ∧
    (q.func ⟨0⟩).blocks = [⟨0⟩, ⟨2⟩] ∧ ActiveLeft "EntryPoint" detour q := by
  have ha : activeCode { maxRecursion := 1 } detour =
      .ok ⟨[⟨1⟩, ⟨0⟩], [⟨3⟩, ⟨2⟩, ⟨0⟩]⟩ := by rfl
  obtain ⟨n, q, hrun, hq⟩ := exists_ok
    (r := (replaceSettledPhis ⟨[⟨1⟩, ⟨0⟩], [⟨3⟩, ⟨2⟩, ⟨0⟩]⟩ >>= fun _ =>
      deleteDeadCode ⟨[⟨1⟩, ⟨0⟩], [⟨3⟩, ⟨2⟩, ⟨0⟩]⟩) detour)
    (P := fun q => (q.func ⟨2⟩).erased = true ∧ (q.func ⟨0⟩).blocks = [⟨0⟩, ⟨2⟩])
    (by decide +kernel)
  obtain ⟨k, p₁, hphis, hdelete⟩ := bind_ok hrun
  have hexact := deleteDeadCode_exact (by decide +kernel) (by rfl) targetsOnly_detour rfl
    (Nat.le_refl 1) ha (.inr ⟨k, hphis⟩) hdelete
  exact ⟨q, hq.1, hq.2, hexact.2.2.1⟩

/-- An entry point that returns the label of a block to which nothing goes. -/
def labelled : Program where
  name := "labelled"
  functions := #[
    ⟨"Main", .void, [], false, none, none, [.pair "EntryPoint" none], [⟨0⟩, ⟨1⟩], false⟩]
  blocks := #[⟨some "entry", some ⟨0⟩, [⟨0⟩], false⟩, ⟨some "dead", some ⟨0⟩, [⟨1⟩], false⟩]
  instrs := #[
    ⟨.ret, .void, [.block ⟨1⟩], none, some ⟨0⟩, false⟩,
    ⟨.ret, .void, [], none, some ⟨1⟩, false⟩]

/-- Only terminators refer to blocks in `labelled`, but one does so other than by going there: the
    block that is dead is emptied, and it stays. -/
theorem deletion_keeps_label : labelled.Sound ∧ labelled.verify = .ok () ∧
    (∀ i b, (labelled.instr i).uses (.block b) = true →
      (labelled.instr i).isTerminator = true) ∧
    ¬ labelled.Active "EntryPoint" (.block ⟨1⟩) ∧
    ∃ a n q, activeCode { maxRecursion := 1 } labelled = .ok a ∧
      deleteDeadCode a labelled = .ok n q ∧
      (q.func ⟨0⟩).blocks = [⟨0⟩, ⟨1⟩] ∧ (q.block ⟨1⟩).instrs = [] := by
  have hsound : labelled.Sound := by decide +kernel
  have hverify : labelled.verify = .ok () := by rfl
  have ha : activeCode { maxRecursion := 1 } labelled = .ok ⟨[⟨0⟩], [⟨0⟩]⟩ := by rfl
  refine ⟨hsound, hverify, fun i b huses => ?_, fun hactive => ?_, ⟨[⟨0⟩], [⟨0⟩]⟩, ?_⟩
  · obtain ⟨n⟩ := i
    rcases n with _ | _ | n
    · rfl
    · rfl
    · have hlarge : labelled.instrs.size ≤ (⟨n + 2⟩ : InstrId).index := Nat.le_add_left 2 n
      rw [instr_of_le hlarge] at huses
      cases huses
  · have hmem := ((mem_activeCode (s := { maxRecursion := 1 }) hsound (verify_ok.mp hverify) rfl
      (Nat.le_refl 1) ha).2 ⟨1⟩).mpr hactive
    revert hmem
    decide
  · obtain ⟨n, q, hrun, hq⟩ := exists_ok (r := deleteDeadCode ⟨[⟨0⟩], [⟨0⟩]⟩ labelled)
      (P := fun q => (q.func ⟨0⟩).blocks = [⟨0⟩, ⟨1⟩] ∧ (q.block ⟨1⟩).instrs = [])
      (by decide +kernel)
    exact ⟨n, q, ha, hrun, hq⟩

end Transform

end QirProfile
