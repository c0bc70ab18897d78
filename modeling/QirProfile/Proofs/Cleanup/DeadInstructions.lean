import Mathlib.Order.Bounds.Basic
import QirProfile.Proofs.Cleanup.Pruning

/-!
# Which instructions are dead

An instruction that does nothing but compute a value is dead if nothing uses it but dead
instructions. Of the sets that can be meant by that the clean-up finds the least one: it starts with
what nothing uses, and each round adds what only earlier rounds have used. So instructions that use
each other in a circle stay.
-/

namespace QirProfile

namespace Cleanup

open Program

variable {p q r : Program} {i j : InstrId} {ids : List InstrId} {R : Set InstrId}

/-! ## 1. Dead sets -/

/-- An instruction of a live function that does nothing but compute a value. -/
structure Idle (p : Program) (i : InstrId) : Prop where
  attached : i ∈ attachedInstrs p
  harmless : (p.instr i).kind.hasSideEffects = false
  valued : (p.instr i).ty.isVoid = false

/-- The instruction `j` stands in a block and uses `i`. -/
def IsUser (p : Program) (i j : InstrId) : Prop :=
  (p.instr j).erased = false ∧ (p.instr j).parent.isSome = true ∧
    (p.instr j).uses (.instr i) = true

/-- A set of idle instructions that holds each one whose users it holds and that no global uses. -/
structure DeadSet (p : Program) (R : Set InstrId) : Prop where
  idle : ∀ i ∈ R, Idle p i
  closed : ∀ i, Idle p i → (∀ g, (p.global g).uses (.instr i) = false) →
    (∀ j, IsUser p i j → j ∈ R) → i ∈ R

/-- The instructions that one program has and another one does not have any more. -/
def removed (p q : Program) : Set InstrId :=
  {i | (p.instr i).erased = false ∧ (q.instr i).erased = true}

theorem isDead_iff : isDead p i = true ↔
    ((p.instr i).kind.hasSideEffects = false ∧ (p.instr i).ty.isVoid = false) ∧
      (∀ g, (p.global g).uses (.instr i) = false) ∧ ∀ j, ¬ IsUser p i j := by
  have huses : p.hasUses (.instr i) = false ↔
      (∀ g, (p.global g).uses (.instr i) = false) ∧ ∀ j, ¬ IsUser p i j := by
    rw [← Bool.not_eq_true, hasUses_iff, not_or, not_exists, not_exists, and_comm]
    exact and_congr_left' (by simp only [Bool.not_eq_true])
  rw [isDead, Bool.and_eq_true, Bool.and_eq_true, Bool.not_eq_true', Bool.not_eq_true',
    Bool.not_eq_true', huses]

/-! ## 2. Programs without some of their instructions -/

/-- `q` is `p` without some instructions: blocks do not list them any more, and all else is as it
    was. -/
structure Thinned (p q : Program) : Prop where
  sound : q.Sound
  frame : q = { p with blocks := q.blocks, instrs := q.instrs }
  block : ∀ b, q.block b =
    { p.block b with instrs := (p.block b).instrs.filter fun i => !(q.instr i).erased }
  instr : ∀ i, (q.instr i).erased = false → q.instr i = p.instr i

namespace Thinned

theorem pruned (h : Thinned p q) : Pruned p q where
  sound := h.sound
  functions := by rw [h.frame]
  block := h.block
  live i hi := h.instr i hi ▸ hi

theorem global (h : Thinned p q) (g : GlobalId) : q.global g = p.global g := by
  rw [h.frame]
  rfl

theorem refl (hp : p.Sound) : Thinned p p :=
  ⟨hp, rfl, (Pruned.refl hp).block, fun _ _ => rfl⟩

theorem trans (h₁ : Thinned p q) (h₂ : Thinned q r) : Thinned p r := by
  refine ⟨h₂.sound, ?_, (h₁.pruned.trans h₂.pruned).block, fun i hi => ?_⟩
  · rw [h₂.frame, h₁.frame]
  · exact (h₂.instr i hi).trans (h₁.instr i (h₂.pruned.live i hi))

theorem dropInstr (hp : p.Sound) (hi : (p.instr i).erased = false) :
    Thinned p (p.dropInstr i) := by
  have hpruned := Pruned.dropInstr hp hi
  refine ⟨hpruned.sound, ?_, hpruned.block, fun j hj => instr_dropInstr_ne fun hij => ?_⟩
  · unfold Program.dropInstr
    split <;> rfl
  · rw [(erased_dropInstr hi j).mpr (.inr hij.symm)] at hj
    cases hj

theorem isUser_iff (h : Thinned p q) (hj : (q.instr j).erased = false) :
    IsUser q i j ↔ IsUser p i j := by
  unfold IsUser
  rw [h.instr j hj]

end Thinned

theorem not_mem_removed (hi : (p.instr i).erased = false) :
    i ∉ removed p q ↔ (q.instr i).erased = false := by
  simp [removed, hi]

theorem eraseInstrs_thins (hp : p.Sound) (hids : ids.Nodup)
    (hlive : ∀ i ∈ ids, (p.instr i).erased = false) :
    ∃ q, eraseInstrs ids p = .ok () q ∧ Thinned p q ∧ ∀ i, i ∈ removed p q ↔ i ∈ ids := by
  induction ids generalizing p with
  | nil => exact ⟨p, rfl, .refl hp, fun i => by simp [removed]⟩
  | cons i ids ih =>
    obtain ⟨hi, hids⟩ := List.nodup_cons.mp hids
    have hilive := hlive i List.mem_cons_self
    have hone := Thinned.dropInstr hp hilive
    have hrest : ∀ j ∈ ids, (p.dropInstr i).instr j = p.instr j := fun j hj =>
      instr_dropInstr_ne fun hij => hi (hij ▸ hj)
    obtain ⟨q, hq, hthinned, hremoved⟩ := ih hone.sound hids fun j hj =>
      hrest j hj ▸ hlive j (List.mem_cons_of_mem i hj)
    refine ⟨q, (bind_of_ok (eraseOne_ok hilive) _).trans hq, hone.trans hthinned, fun j => ?_⟩
    have hgone : ((p.dropInstr i).instr i).erased = true := by
      rw [instr_dropInstr_self (instr_lt_of_live hilive)]
    by_cases hij : i = j
    · subst hij
      refine iff_of_true ⟨hilive, ?_⟩ List.mem_cons_self
      cases hlate : (q.instr i).erased with
      | true => rfl
      | false => exact (hgone.symm.trans (hthinned.pruned.live i hlate)).symm
    · rw [List.mem_cons, or_iff_right (Ne.symm hij), ← hremoved j, removed, removed,
        Set.mem_ofPred_eq, Set.mem_ofPred_eq, instr_dropInstr_ne hij]

/-! ## 3. Rounds -/

/-- What holds while dead instructions go: they are idle, so have gone all that used one of them,
    and every dead set holds them. -/
structure Eliminating (p q : Program) : Prop where
  thinned : Thinned p q
  idle : ∀ i ∈ removed p q, Idle p i
  users : ∀ i ∈ removed p q, ∀ j, IsUser p i j → j ∈ removed p q
  least : ∀ R, DeadSet p R → removed p q ⊆ R

theorem Eliminating.refl (hp : p.Sound) : Eliminating p p := by
  have hnone : ∀ i, i ∉ removed p p := fun i hi => Bool.false_ne_true (hi.1.symm.trans hi.2)
  exact ⟨.refl hp, fun i hi => absurd hi (hnone i), fun i hi => absurd hi (hnone i),
    fun _ _ i hi => absurd hi (hnone i)⟩

theorem Eliminating.erase (h : Eliminating p q) (hr : Thinned q r)
    (hdead : ∀ i, i ∈ removed q r ↔ i ∈ attachedInstrs q ∧ isDead q i = true) :
    Eliminating p r := by
  have hcases : ∀ i ∈ removed p r, i ∈ removed p q ∨ i ∈ removed q r := by
    rintro i ⟨hlive, hgone⟩
    cases hi : (q.instr i).erased with
    | true => exact .inl ⟨hlive, hi⟩
    | false => exact .inr ⟨hi, hgone⟩
  have hgone : ∀ {i}, i ∈ removed p q → i ∈ removed p r := by
    rintro i ⟨hlive, hgone⟩
    refine ⟨hlive, ?_⟩
    cases hi : (r.instr i).erased with
    | true => rfl
    | false => exact (hr.pruned.live i hi).symm.trans hgone
  have hnew : ∀ i ∈ removed q r, Idle p i ∧ (∀ g, (p.global g).uses (.instr i) = false) ∧
      ∀ j, IsUser p i j → j ∈ removed p q := by
    intro i hi
    obtain ⟨hmem, hfacts⟩ := (hdead i).mp hi
    obtain ⟨⟨heffects, hvoid⟩, hglobals, husers⟩ := isDead_iff.mp hfacts
    rw [h.thinned.instr i hi.1] at heffects hvoid
    refine ⟨⟨(h.thinned.pruned.mem_attachedInstrs.mp hmem).1, heffects, hvoid⟩,
      fun g => h.thinned.global g ▸ hglobals g, fun j hj => ?_⟩
    by_contra hstays
    exact husers j ((h.thinned.isUser_iff ((not_mem_removed hj.1).mp hstays)).mpr hj)
  refine ⟨h.thinned.trans hr, fun i hi => ?_, fun i hi j hj => hgone ?_, fun R hR i hi => ?_⟩
  · exact (hcases i hi).elim (h.idle i) fun hi => (hnew i hi).1
  · exact (hcases i hi).elim (fun hi => h.users i hi j hj) fun hi => (hnew i hi).2.2 j hj
  · refine (hcases i hi).elim (fun hi => h.least R hR hi) fun hi => ?_
    obtain ⟨hidle, hglobals, husers⟩ := hnew i hi
    exact hR.closed i hidle hglobals fun j hj => h.least R hR (husers j hj)

theorem Eliminating.isLeast (hp : p.Sound) (h : Eliminating p q)
    (hnone : ∀ i ∈ attachedInstrs q, isDead q i = false) :
    IsLeast {R | DeadSet p R} (removed p q) := by
  refine ⟨⟨h.idle, fun i hi hglobals husers => ?_⟩, h.least⟩
  by_contra hstays
  have hlive := (not_mem_removed (hp.live_of_attached hi.attached)).mp hstays
  have hsame := h.thinned.instr i hlive
  have hattached := h.thinned.pruned.mem_attachedInstrs.mpr ⟨hi.attached, hlive⟩
  refine Bool.eq_false_iff.mp (hnone i hattached)
    (isDead_iff.mpr ⟨hsame ▸ ⟨hi.harmless, hi.valued⟩, fun g => ?_, fun j hj => ?_⟩)
  · rw [h.thinned.global]
    exact hglobals g
  · have hgone := (husers j ((h.thinned.isUser_iff hj.1).mp hj)).2
    rw [hj.1] at hgone
    cases hgone

theorem eliminateRounds_eliminates {fuel : Nat} (h : Eliminating p q)
    (hfuel : (attachedInstrs q).length < fuel) :
    ∃ r, eliminateRounds fuel q = .ok () r ∧ Eliminating p r ∧
      ∀ i ∈ attachedInstrs r, isDead r i = false := by
  induction fuel generalizing q with
  | zero => exact absurd hfuel (Nat.not_lt_zero _)
  | succ fuel ih =>
    have hq := h.thinned.sound
    obtain ⟨r, herase, hr, hremoved⟩ := eraseInstrs_thins hq
      (hq.nodup_attachedInstrs.filter (isDead q)) fun i hi =>
        hq.live_of_attached (List.mem_of_mem_filter hi)
    unfold eliminateRounds
    rw [get_bind]
    split
    · rename_i hempty
      refine ⟨q, rfl, h, fun i hi => Bool.eq_false_iff.mpr fun hdead => ?_⟩
      exact List.filter_eq_nil_iff.mp (List.isEmpty_iff.mp hempty) i hi hdead
    · rename_i hsome
      obtain ⟨i, hi⟩ := List.exists_mem_of_ne_nil _ fun hnil => hsome (List.isEmpty_iff.mpr hnil)
      have hless := hr.pruned.length_lt (List.mem_of_mem_filter hi) ((hremoved i).mpr hi).2
      obtain ⟨u, hrounds, hu⟩ := ih (h.erase hr fun i => (hremoved i).trans List.mem_filter)
        (Nat.lt_of_lt_of_le hless (Nat.lt_succ_iff.mp hfuel))
      exact ⟨u, (bind_of_ok herase _).trans hrounds, hu⟩

/-! ## 4. The verifier -/

namespace Thinned

theorem functionOf (h : Thinned p q) {f : FuncId} (hi : q.functionOf? i = some f) :
    p.functionOf? i = some f ∧ q.instr i = p.instr i := by
  have hsame := h.instr i (h.sound.live_of_functionOf hi)
  unfold functionOf? at hi ⊢
  rw [hsame] at hi
  refine ⟨?_, hsame⟩
  obtain ⟨b, hb, hparent⟩ := Option.bind_eq_some_iff.mp hi
  rw [h.block] at hparent
  exact Option.bind_eq_some_iff.mpr ⟨b, hb, hparent⟩

theorem functionOf_of_live (h : Thinned p q) {f : FuncId} (hi : (q.instr i).erased = false)
    (hin : p.functionOf? i = some f) : q.functionOf? i = some f := by
  obtain ⟨b, hb, hparent⟩ := Option.bind_eq_some_iff.mp hin
  refine Option.bind_eq_some_iff.mpr ⟨b, (h.instr i hi).symm ▸ hb, ?_⟩
  rw [h.block]
  exact hparent

end Thinned

theorem Idle.isTerminator (h : Idle p i) : (p.instr i).isTerminator = false := by
  have hharmless := h.harmless
  unfold InstrKind.hasSideEffects at hharmless
  split at hharmless
  · cases hharmless
  · cases hharmless
  · exact hharmless

theorem Eliminating.verified (hp : p.Sound) (h : Eliminating p q) (hv : p.Verified) :
    q.Verified := by
  have hfunc := h.thinned.pruned.func
  have hlinked : Linked noGuests q := by
    refine (hv.linked hp).lose h.thinned.sound (fun f hf => hfunc f ▸ hf)
      (fun f i hi => h.thinned.functionOf hi) (fun f i j _ hi huses hj => ?_)
      (fun f i b _ _ _ hb => ?_) fun f i k _ _ _ hk => (hfunc k).symm ▸ hk
    · have hilive := h.thinned.sound.live_of_functionOf hi
      obtain ⟨hiold, -⟩ := h.thinned.functionOf hi
      refine h.thinned.functionOf_of_live ((not_mem_removed (hp.live_of_functionOf hj)).mp
        fun hgone => ?_) hj
      obtain ⟨b, hb⟩ := parent_of_functionOf hiold
      have huser : IsUser p j i := ⟨hp.live_of_functionOf hiold, by rw [hb]; rfl, huses⟩
      rw [(h.users j hgone i huser).2] at hilive
      cases hilive
    · rw [h.thinned.block]
      exact hb
  refine hlinked.verified fun f hf b hb => ?_
  rw [hfunc] at hf hb
  rw [h.thinned.block]
  have hkept : p.Ordered ((p.block b).instrs.filter fun i => !(q.instr i).erased) := by
    refine (hv.inOrder f hf b hb).filter fun i hi hterm => ?_
    rw [Bool.not_eq_true', ← not_mem_removed (hp.instr_live hi)]
    intro hgone
    rw [(h.idle i hgone).isTerminator] at hterm
    cases hterm
  refine hkept.congr fun i hi => ?_
  rw [h.thinned.instr i (by simpa using (List.mem_filter.mp hi).2)]
  exact ⟨rfl, rfl⟩

/-- What goes is the least dead set. All else stays in order, and a verified program stays verified.
    -/
theorem eliminateDead_isLeast (hp : p.Sound) :
    ∃ q, eliminateDead p = .ok () q ∧ IsLeast {R | DeadSet p R} (removed p q) ∧ Thinned p q ∧
      (p.verify = .ok () → q.verify = .ok ()) := by
  obtain ⟨q, hq, heliminates, hnone⟩ :=
    eliminateRounds_eliminates (.refl hp) (Nat.lt_succ_self (attachedInstrs p).length)
  exact ⟨q, hq, heliminates.isLeast hp hnone, heliminates.thinned,
    fun hverify => verify_ok.mpr (heliminates.verified hp (verify_ok.mp hverify))⟩

/-- A sum of a sum that nothing uses, and a loop that counts for itself. -/
def leftovers : Program where
  name := "leftovers"
  functions := #[⟨"f", .void, [], false, none, none, [], [⟨0⟩, ⟨1⟩], false⟩]
  blocks := #[
    ⟨some "entry", some ⟨0⟩, [⟨0⟩, ⟨1⟩, ⟨2⟩], false⟩,
    ⟨some "loop", some ⟨0⟩, [⟨3⟩, ⟨4⟩, ⟨5⟩], false⟩]
  instrs := #[
    ⟨.binary .add, .int 64, [.int 64 1, .int 64 2], some "a", some ⟨0⟩, false⟩,
    ⟨.binary .add, .int 64, [.instr ⟨0⟩, .instr ⟨0⟩], some "b", some ⟨0⟩, false⟩,
    ⟨.br, .void, [.block ⟨1⟩], none, some ⟨0⟩, false⟩,
    ⟨.phi [⟨0⟩, ⟨1⟩], .int 64, [.int 64 0, .instr ⟨4⟩], some "n", some ⟨1⟩, false⟩,
    ⟨.binary .add, .int 64, [.instr ⟨3⟩, .int 64 1], some "m", some ⟨1⟩, false⟩,
    ⟨.br, .void, [.block ⟨1⟩], none, some ⟨1⟩, false⟩]

theorem eliminateDead_isLeast_leftovers :
    ∃ q, eliminateDead leftovers = .ok () q ∧
      IsLeast {R | DeadSet leftovers R} (removed leftovers q) ∧ q.verify = .ok () ∧
      q.instrsOf ⟨0⟩ = [⟨2⟩, ⟨3⟩, ⟨4⟩, ⟨5⟩] := by
  obtain ⟨q, hq, hleast, -, hverify⟩ := eliminateDead_isLeast (p := leftovers) (by decide +kernel)
  obtain ⟨_, q', hsame, hlist⟩ := exists_ok (r := eliminateDead leftovers)
    (P := fun q => q.instrsOf ⟨0⟩ = [⟨2⟩, ⟨3⟩, ⟨4⟩, ⟨5⟩]) (by decide +kernel)
  rw [hsame] at hq
  cases hq
  exact ⟨q, hsame, hleast, hverify (by decide +kernel), hlist⟩

end Cleanup

end QirProfile
