import QirProfile.Proofs.Cleanup.FoldedFunctions

/-!
# Static addresses written where they are used

A static address is an instruction that makes a pointer of a constant. It gives way to the constant
that the conversion of that constant is, and then another conversion may have a constant operand.
Each such step takes an instruction away, so the rounds end, and they end with none left.
-/

namespace QirProfile

open Relation (ReflTransGen)

/-- Kinds of instructions that may fold. -/
def InstrKind.mayFold : InstrKind → Bool
  | .binary _ | .icmp _ | .select | .phi _ => true
  | .cast op => op = .trunc ∨ op = .zext ∨ op = .sext
  | _ => false

theorem Program.mayFold_of_fold? {p : Program} {id : InstrId} {v : Value}
    (h : p.fold? id = some v) : (p.instr id).kind.mayFold = true := by
  unfold Program.fold? at h
  dsimp only at h
  split at h
  · cases h
  split at h
  case h_3 op _ _ _ hkind _ =>
    obtain ⟨_, -, h⟩ := Option.bind_eq_some_iff.mp h
    obtain ⟨n, hn, -⟩ := Option.bind_eq_some_iff.mp h
    rw [hkind]
    cases op <;> first | rfl | cases hn
  case h_6 => cases h
  all_goals
    rename_i hkind _
    rw [hkind]
    rfl

namespace Value

theorem Flat.cast {v : Value} (h : v.Flat) (hv : v.isConstant = true) (op : CastOp) (ty : Ty) :
    (Value.cast op v ty).Flat := by
  intro w hw hmentions
  simp only [mentions, Bool.or_eq_true, beq_iff_eq] at hmentions
  rcases hmentions with rfl | hmentions
  · rfl
  · obtain rfl := h w hw hmentions
    cases w <;> simp [isLocal] at hw <;> cases hv

end Value

/-- A program that is in order, with flat constants. -/
structure Program.Workable (p : Program) : Prop where
  neat : Neat [] p
  flat : Transform.FlatConstants p

theorem Program.Workable.sound {p : Program} (h : p.Workable) : p.Sound := h.neat.sound

namespace Cleanup

open Program Transform

variable {p q r : Program} {id i j : InstrId} {u v w : Value} {ids : List InstrId}

/-! ## 1. Conversions to addresses -/

/-- The operand that an instruction makes an address of. -/
def converted? (i : Instr) : Option Value :=
  match i.kind, i.operands with
  | .cast op, v :: _ => if op = .inttoptr ∨ op = .bitcast then some v else none
  | _, _ => none

/-- No instruction of a live function makes an address of a constant. -/
def StaticFree (p : Program) : Prop :=
  ∀ i ∈ attachedInstrs p, ∀ v, converted? (p.instr i) = some v → v.isConstant = false

/-- Some instruction makes an address of the result of an instruction that may fold. -/
def ConvertsFoldable (p : Program) : Prop :=
  ∃ i ∈ attachedInstrs p, ∃ j, converted? (p.instr i) = some (.instr j) ∧
    (p.instr j).kind.mayFold = true

theorem converted?_mem {i : Instr} (h : converted? i = some v) : v ∈ i.operands := by
  unfold converted? at h
  split at h
  · rename_i hoperands
    split at h
    · cases h
      rw [hoperands]
      exact List.mem_cons_self
    · cases h
  · cases h

theorem staticAddress?_cases {i : Instr} (h : staticAddress? i = some w) :
    ∃ op v, converted? i = some v ∧ v.isConstant = true ∧ w = .cast op v i.ty ∧
      i.kind = .cast op := by
  unfold staticAddress? at h
  split at h
  · rename_i op v rest hkind hoperands
    split at h
    · rename_i hstatic
      cases h
      refine ⟨op, v, ?_, hstatic.2, rfl, hkind⟩
      simp only [converted?, hkind, hoperands]
      exact if_pos hstatic.1
    · cases h
  · cases h

theorem staticAddress?_eq_none {i : Instr} : staticAddress? i = none ↔
    ∀ v, converted? i = some v → v.isConstant = false := by
  constructor
  · intro h v hv
    unfold converted? at hv
    split at hv
    · rename_i hkind hoperands
      split at hv
      · rename_i hop
        cases hv
        simp only [staticAddress?, hkind, hoperands, hop, true_and, ite_eq_right_iff] at h
        exact Bool.eq_false_iff.mpr fun hconstant => Option.some_ne_none _ (h hconstant)
      · cases hv
    · cases hv
  · intro h
    by_contra hsome
    obtain ⟨w, hw⟩ := Option.ne_none_iff_exists'.mp hsome
    obtain ⟨op, v, hv, hconstant, -⟩ := staticAddress?_cases hw
    rw [h v hv] at hconstant
    cases hconstant

theorem converted?_giveWay (h : GaveWay p id v q) (hi : (q.instr i).erased = false) :
    converted? (q.instr i) = (converted? (p.instr i)).map (Value.substitute (.instr id) v) := by
  unfold converted?
  rw [(h.kinds i).1, h.operands i hi]
  cases (p.instr i).operands with
  | nil => cases (p.instr i).kind <;> rfl
  | cons u us =>
    cases (p.instr i).kind <;> try rfl
    rw [List.map_cons]
    dsimp only
    split <;> rfl

theorem converted?_cases (hflat : FlatConstants p) (h : GaveWay p id v q)
    (hi : (q.instr i).erased = false) (hw : converted? (q.instr i) = some w) :
    ∃ u, converted? (p.instr i) = some u ∧ (u = .instr id ∧ w = v ∨ u ≠ .instr id ∧ w = u) := by
  rw [converted?_giveWay h hi] at hw
  obtain ⟨u, hu, rfl⟩ := Option.map_eq_some_iff.mp hw
  refine ⟨u, hu, ?_⟩
  rw [(hflat.operands i (h.live hi) u (converted?_mem hu)).substitute rfl]
  split
  · rename_i heq
    exact .inl ⟨heq, rfl⟩
  · rename_i hne
    exact .inr ⟨hne, rfl⟩

/-! ## 2. One address -/

/-- A static address gives way to its constant. -/
inductive InlineStep (p : Program) : Program → Prop
  | intro {id : InstrId} {w : Value} : id ∈ attachedInstrs p →
      staticAddress? (p.instr id) = some w → InlineStep p ((p.replaceUses (.instr id) w).dropInstr id)

theorem inlineStep_workable (h : p.Workable) (hstep : InlineStep p q) : q.Workable := by
  obtain ⟨hid, hw⟩ := hstep
  rename_i id w
  obtain ⟨op, v, hv, hconstant, rfl, hkind⟩ := staticAddress?_cases hw
  have hlive := h.sound.live_of_attached hid
  have hmem := converted?_mem hv
  have hflat := (h.flat.operands id hlive v hmem).cast hconstant op (p.instr id).ty
  refine ⟨h.neat.giveWay hlive ?_ hflat nofun fun f hf hin => ?_,
    h.flat.giveWay (gaveWay_drop h.sound hlive) hflat⟩
  · rw [Instr.isTerminator, hkind]
    rfl
  · exact h.neat.linked.operands f id hf hin v hmem

theorem inlineStep_pruned (hp : p.Sound) (hstep : InlineStep p q) : Pruned p q := by
  obtain ⟨hid, -⟩ := hstep
  exact .giveWay hp (hp.live_of_attached hid) _

theorem inlineStep_buries (hp : p.Sound) (hstep : InlineStep p q) : p.Buries q := by
  obtain ⟨hid, -⟩ := hstep
  rename_i id w
  have hframe := sameFrame_replaceUses p (.instr id) w
  have hlive := (hframe.instr id).2.trans (hp.live_of_attached hid)
  exact ((hframe.evolves.trans (evolves_dropInstr hlive)) hp).2

theorem inlineStep_convertsFoldable (h : p.Workable) (hstep : InlineStep p q)
    (hq : ConvertsFoldable q) : ConvertsFoldable p := by
  have hpruned := inlineStep_pruned h.sound hstep
  obtain ⟨i, hi, j, hj, hfolds⟩ := hq
  obtain ⟨hin, hilive⟩ := hpruned.mem_attachedInstrs.mp hi
  obtain ⟨hid, hw⟩ := hstep
  rename_i id w
  obtain ⟨op, v, -, -, rfl, -⟩ := staticAddress?_cases hw
  have hgone := gaveWay_drop (v := .cast op v (p.instr id).ty) h.sound
    (h.sound.live_of_attached hid)
  rw [(hgone.kinds j).1] at hfolds
  obtain ⟨u, hu, ⟨-, hcast⟩ | ⟨-, rfl⟩⟩ := converted?_cases h.flat hgone hilive hj
  · cases hcast
  · exact ⟨i, hin, j, hu, hfolds⟩

/-! ## 3. Rounds -/

theorem inlineSteps_pruned (hp : p.Sound) (h : ReflTransGen InlineStep p q) : Pruned p q := by
  induction h with
  | refl => exact .refl hp
  | tail _ hstep ih => exact ih.trans (inlineStep_pruned ih.sound hstep)

theorem inlineSteps_buries (hp : p.Sound) (h : ReflTransGen InlineStep p q) : p.Buries q := by
  induction h with
  | refl => exact .refl p
  | tail hsteps hstep ih =>
    exact ih.trans (inlineStep_buries (inlineSteps_pruned hp hsteps).sound hstep)

theorem inlineSteps_workable (hp : p.Workable) (h : ReflTransGen InlineStep p q) :
    q.Workable ∧ (ConvertsFoldable q → ConvertsFoldable p) := by
  induction h with
  | refl => exact ⟨hp, id⟩
  | tail _ hstep ih =>
    exact ⟨inlineStep_workable ih.1 hstep, fun hq =>
      ih.2 (inlineStep_convertsFoldable ih.1 hstep hq)⟩

theorem inlineSteps_of_staticFree (hp : StaticFree p) (h : ReflTransGen InlineStep p q) :
    q = p := by
  induction h using ReflTransGen.head_induction_on with
  | refl => rfl
  | head hstep _ _ =>
    obtain ⟨hid, hw⟩ := hstep
    rw [staticAddress?_eq_none.mpr (hp _ hid)] at hw
    cases hw

theorem inlineSteps_removed (hp : p.Sound) (h : ReflTransGen InlineStep p q) (hne : q ≠ p) :
    ∃ i ∈ attachedInstrs p, (q.instr i).erased = true := by
  rcases h.cases_head with rfl | ⟨r, hstep, hrest⟩
  · exact absurd rfl hne
  have hpruned := inlineSteps_pruned (inlineStep_pruned hp hstep).sound hrest
  obtain ⟨hid, hw⟩ := hstep
  rename_i id w
  refine ⟨id, hid, ?_⟩
  by_contra hlive
  have hlate := hpruned.live id (Bool.not_eq_true _ ▸ hlive)
  rw [((gaveWay_drop hp (hp.live_of_attached hid)).erased id).mpr (.inr rfl)] at hlate
  cases hlate

/-- What a part of the loop has done: it has taken steps, and it says so. If it has taken none, it
    has seen that `none` holds. -/
structure Inlined (none : Prop) (p : Program) (b : Bool) (q : Program) : Prop where
  steps : ReflTransGen InlineStep p q
  some : b = true → ∃ i ∈ attachedInstrs p, (q.instr i).erased = true
  none : b = false → q = p ∧ none

theorem Inlined.append {M N O : Prop} {b c : Bool} (hp : p.Sound) (h₁ : Inlined M p b q)
    (h₂ : Inlined N q c r) (hO : q = p → N → O) : Inlined (M ∧ O) p (b || c) r := by
  have hpruned := inlineSteps_pruned hp h₁.steps
  have hrest := inlineSteps_pruned hpruned.sound h₂.steps
  refine ⟨h₁.steps.trans h₂.steps, fun hany => ?_, fun hnone => ?_⟩
  · rcases Bool.or_eq_true_iff.mp hany with hb | hc
    · obtain ⟨i, hi, hgone⟩ := h₁.some hb
      refine ⟨i, hi, ?_⟩
      by_contra hlive
      have hlate := hrest.live i (Bool.not_eq_true _ ▸ hlive)
      rw [hgone] at hlate
      cases hlate
    · obtain ⟨i, hi, hgone⟩ := h₂.some hc
      exact ⟨i, (hpruned.mem_attachedInstrs.mp hi).1, hgone⟩
  · obtain ⟨hb, hc⟩ := Bool.or_eq_false_iff.mp hnone
    obtain ⟨rfl, hM⟩ := h₁.none hb
    obtain ⟨rfl, hN⟩ := h₂.none hc
    exact ⟨rfl, hM, hO rfl hN⟩

theorem inlineInstr_inlined (hp : p.Sound) (hid : id ∈ attachedInstrs p) :
    ∃ b q, inlineInstr id p = .ok b q ∧ Inlined (staticAddress? (p.instr id) = none) p b q ∧
      ∀ i, i ≠ id → (q.instr i).erased = (p.instr i).erased := by
  unfold inlineInstr
  rw [get_bind]
  cases hw : staticAddress? (p.instr id) with
  | none => exact ⟨false, p, rfl, ⟨.refl, nofun, fun _ => ⟨rfl, rfl⟩⟩, fun _ _ => rfl⟩
  | some w =>
    have hlive := hp.live_of_attached hid
    have hgone := gaveWay_drop (v := w) hp hlive
    have hlive' := ((sameFrame_replaceUses p (.instr id) w).instr id).2.trans hlive
    have hmodify : (modify (·.replaceUses (.instr id) w) : Edit PUnit) p =
        .ok ⟨⟩ (p.replaceUses (.instr id) w) := rfl
    refine ⟨true, _, (bind_of_ok hmodify _).trans (bind_of_ok (eraseOne_ok hlive') _),
      ⟨.single (.intro hid hw), fun _ => ⟨id, hid, (hgone.erased id).mpr (.inr rfl)⟩, nofun⟩,
      fun i hi => ?_⟩
    rw [Bool.eq_iff_iff, hgone.erased, or_iff_left hi]

theorem inlineEach_inlined (hp : p.Sound) (hids : ids.Nodup)
    (hin : ∀ id ∈ ids, id ∈ attachedInstrs p) :
    ∃ b q, inlineEach ids p = .ok b q ∧
      Inlined (∀ id ∈ ids, staticAddress? (p.instr id) = none) p b q := by
  induction ids generalizing p with
  | nil => exact ⟨false, p, rfl, .refl, nofun, fun _ => ⟨rfl, nofun⟩⟩
  | cons id ids ih =>
    obtain ⟨hid, hids⟩ := List.nodup_cons.mp hids
    obtain ⟨b, p₁, hone, h₁, hothers⟩ := inlineInstr_inlined hp (hin id List.mem_cons_self)
    have hpruned := inlineSteps_pruned hp h₁.steps
    obtain ⟨c, q, hrest, h₂⟩ := ih hpruned.sound hids fun i hi => by
      have hattached := hin i (List.mem_cons_of_mem id hi)
      have hne : i ≠ id := fun heq => hid (heq ▸ hi)
      exact hpruned.mem_attachedInstrs.mpr
        ⟨hattached, (hothers i hne).trans (hp.live_of_attached hattached)⟩
    have hall := h₁.append hp h₂ fun heq hN => heq ▸ hN
    refine ⟨b || c, q, (bind_of_ok hone _).trans (bind_of_ok hrest _), hall.steps, hall.some,
      fun hnone => ?_⟩
    obtain ⟨hsame, hhere, hlater⟩ := hall.none hnone
    exact ⟨hsame, List.forall_mem_cons.mpr ⟨hhere, hlater⟩⟩

theorem inlineFunctions_inlined {fs : List FuncId} (hp : p.Sound)
    (hfs : ∀ f ∈ fs, (p.func f).erased = false) :
    ∃ b q, inlineFunctions fs p = .ok b q ∧
      Inlined (∀ f ∈ fs, ∀ id ∈ p.instrsOf f, staticAddress? (p.instr id) = none) p b q := by
  induction fs generalizing p with
  | nil => exact ⟨false, p, rfl, .refl, nofun, fun _ => ⟨rfl, nofun⟩⟩
  | cons f fs ih =>
    have hf := mem_liveFunctions.mpr (hfs f List.mem_cons_self)
    obtain ⟨b, p₁, hone, h₁⟩ := inlineEach_inlined hp (hp.nodup_instrsOf f) fun id hid =>
      List.mem_flatMap.mpr ⟨f, hf, hid⟩
    have hpruned := inlineSteps_pruned hp h₁.steps
    obtain ⟨c, q, hrest, h₂⟩ := ih hpruned.sound fun g hg =>
      hpruned.func g ▸ hfs g (List.mem_cons_of_mem f hg)
    have hall := h₁.append hp h₂ fun heq hN => heq ▸ hN
    refine ⟨b || c, q, ?_, hall.steps, hall.some, fun hnone => ?_⟩
    · unfold inlineFunctions
      rw [get_bind, bind_of_ok hone, bind_of_ok hrest]
      rfl
    · obtain ⟨hsame, hhere, hlater⟩ := hall.none hnone
      exact ⟨hsame, List.forall_mem_cons.mpr ⟨hhere, hlater⟩⟩

theorem inlineRounds_steps {fuel : Nat} (hp : p.Sound) (hfuel : (attachedInstrs p).length < fuel) :
    ∃ q, inlineRounds fuel p = .ok () q ∧ ReflTransGen InlineStep p q ∧ StaticFree q := by
  induction fuel generalizing p with
  | zero => exact absurd hfuel (Nat.not_lt_zero _)
  | succ fuel ih =>
    have hlive : ∀ f ∈ p.liveFunctions, (p.func f).erased = false := fun f => mem_liveFunctions.mp
    obtain ⟨b, q, hround, hall⟩ := inlineFunctions_inlined hp hlive
    unfold inlineRounds
    rw [get_bind, bind_of_ok hround]
    cases b with
    | false =>
      obtain ⟨rfl, hnone⟩ := hall.none rfl
      refine ⟨q, rfl, .refl, fun i hi => staticAddress?_eq_none.mp ?_⟩
      obtain ⟨f, hf, hin⟩ := List.mem_flatMap.mp hi
      exact hnone f hf i hin
    | true =>
      have hpruned := inlineSteps_pruned hp hall.steps
      obtain ⟨i, hi, hgone⟩ := hall.some rfl
      have hless := hpruned.length_lt hi hgone
      obtain ⟨r, hrounds, hsteps, hfree⟩ := ih hpruned.sound
        (Nat.lt_of_lt_of_le hless (Nat.lt_succ_iff.mp hfuel))
      exact ⟨r, hrounds, hall.steps.trans hsteps, hfree⟩

/-- Inlining is a row of steps that ends with no static address left. -/
theorem inlineAddresses_steps (hp : p.Sound) :
    ∃ q, inlineAddresses p = .ok () q ∧ ReflTransGen InlineStep p q ∧ StaticFree q :=
  inlineRounds_steps hp (Nat.lt_succ_self _)

end Cleanup

end QirProfile
