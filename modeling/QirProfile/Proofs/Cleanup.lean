import QirProfile.Cleanup
import QirProfile.Proofs.Program.Copies

/-!
# Simplifications are never refused

Constant folding erases instructions that it has just seen alive, so no program refuses it. Dead
instructions are erased in bulk: in a sound program no instruction is listed twice, so each of them
is still there when its turn comes.
-/

namespace QirProfile

namespace Program

variable {p q : Program}

/-! ## 1. Constant folding -/

theorem live_of_fold? {id : InstrId} {v : Value} (h : p.fold? id = some v) :
    (p.instr id).erased = false := by
  cases herased : (p.instr id).erased with
  | false => rfl
  | true =>
    simp only [fold?, herased, if_true] at h
    cases h

theorem foldAway_ok {id : InstrId} {v : Value} : p.foldAway id v = .ok q ↔
    (p.instr id).erased = false ∧ q = (p.replaceUses (.instr id) v).dropInstr id := by
  unfold foldAway
  rw [eraseInstr_ok, ((sameFrame_replaceUses p _ _).instr id).2]

theorem evolves_foldAway {id : InstrId} {v : Value} (h : p.foldAway id v = .ok q) : p.Evolves q :=
  (sameFrame_replaceUses p _ _).evolves.trans (evolves_eraseInstr h)

theorem foldRound_ok (p : Program) (ids : List InstrId) :
    ∃ q n, p.foldRound ids = .ok (q, n) ∧ p.Evolves q := by
  induction ids generalizing p with
  | nil => exact ⟨p, 0, rfl, .refl p⟩
  | cons id rest ih =>
    unfold foldRound
    cases hfold : p.fold? id with
    | none => exact ih p
    | some v =>
      have haway := (foldAway_ok (v := v)).mpr ⟨live_of_fold? hfold, rfl⟩
      obtain ⟨q, n, hround, hq⟩ := ih ((p.replaceUses (.instr id) v).dropInstr id)
      refine ⟨q, n + 1, ?_, (evolves_foldAway haway).trans hq⟩
      simp only [haway, hround, bind, Except.bind, pure, Except.pure]

theorem foldRounds_ok (f : FuncId) (fuel : Nat) (p : Program) :
    ∃ q n, foldRounds f fuel p = .ok (q, n) ∧ p.Evolves q := by
  induction fuel generalizing p with
  | zero => exact ⟨p, 0, rfl, .refl p⟩
  | succ fuel ih =>
    obtain ⟨q, n, hround, hq⟩ := foldRound_ok p (p.instrsOf f)
    unfold foldRounds
    rw [hround]
    simp only [bind, Except.bind, pure, Except.pure]
    split
    · exact ⟨q, 0, rfl, hq⟩
    · obtain ⟨r, m, hrounds, hr⟩ := ih q
      rw [hrounds]
      exact ⟨r, n + m, rfl, hq.trans hr⟩

/-- Folding a function is never refused. -/
theorem foldConstants_ok (p : Program) (f : FuncId) :
    ∃ q n, p.foldConstants f = .ok (q, n) ∧ p.Evolves q :=
  foldRounds_ok f _ p

/-! ## 2. Instructions of live functions -/

theorem Sound.nodup_attachedInstrs (h : p.Sound) : (Cleanup.attachedInstrs p).Nodup := by
  rw [Cleanup.attachedInstrs, List.nodup_flatMap]
  refine ⟨fun f _ => h.nodup_instrsOf f, p.nodup_liveFunctions.imp ?_⟩
  intro f g hfg i hif hig
  rw [h.mem_instrsOf] at hif hig
  rw [hif] at hig
  exact hfg (Option.some.inj hig)

theorem Sound.live_of_mem_instrsOf (h : p.Sound) {f : FuncId} {i : InstrId}
    (hi : i ∈ p.instrsOf f) : (p.instr i).erased = false := by
  obtain ⟨b, -, hib⟩ := List.mem_flatMap.mp hi
  exact h.instr_live hib

theorem Sound.live_of_attached (h : p.Sound) {i : InstrId} (hi : i ∈ Cleanup.attachedInstrs p) :
    (p.instr i).erased = false := by
  obtain ⟨f, -, hif⟩ := List.mem_flatMap.mp hi
  exact h.live_of_mem_instrsOf hif

end Program

namespace Cleanup

/-! ## 3. Whole programs -/

theorem foldOne_ok {p q : Program} {f : FuncId} {n : Nat} (h : p.foldConstants f = .ok (q, n)) :
    (discard (Edit.tryMake (·.foldConstants f)) : Edit PUnit) p = .ok () q := by
  simp [discard, Functor.mapConst, EStateM.map, Edit.tryMake, h]

theorem foldAll_ok (p : Program) : ∃ q, foldAll p = .ok () q ∧ p.Evolves q := by
  have hall : ∀ (fs : List FuncId) (p : Program), ∃ q,
      (fs.forM fun f => discard (Edit.tryMake (·.foldConstants f)) : Edit Unit) p = .ok () q ∧
        p.Evolves q := by
    intro fs
    induction fs with
    | nil => exact fun p => ⟨p, rfl, .refl p⟩
    | cons f fs ih =>
      intro p
      obtain ⟨q, n, hfold, hq⟩ := p.foldConstants_ok f
      obtain ⟨r, hrest, hr⟩ := ih q
      exact ⟨r, (bind_of_ok (foldOne_ok hfold) _).trans hrest, hq.trans hr⟩
  exact hall p.liveFunctions p

theorem eraseOne_ok {p : Program} {id : InstrId} (h : (p.instr id).erased = false) :
    Edit.attempt (·.eraseInstr id) p = .ok () (p.dropInstr id) :=
  Program.attempt_ok.mpr (Program.eraseInstr_ok.mpr ⟨h, rfl⟩)

theorem eraseInstrs_ok {p : Program} {ids : List InstrId} (hids : ids.Nodup)
    (hlive : ∀ id ∈ ids, (p.instr id).erased = false) :
    ∃ q, eraseInstrs ids p = .ok () q ∧ p.Evolves q := by
  induction ids generalizing p with
  | nil => exact ⟨p, rfl, .refl p⟩
  | cons id ids ih =>
    obtain ⟨hid, hids⟩ := List.nodup_cons.mp hids
    have hidlive := hlive id List.mem_cons_self
    have hrest : ∀ i ∈ ids, ((p.dropInstr id).instr i).erased = false := by
      intro i hi
      have hne : id ≠ i := fun he => hid (he ▸ hi)
      rw [Program.instr_dropInstr_ne hne]
      exact hlive i (List.mem_cons_of_mem id hi)
    obtain ⟨q, hq, hevolves⟩ := ih hids hrest
    exact ⟨q, (bind_of_ok (eraseOne_ok hidlive) _).trans hq,
      (Program.evolves_dropInstr hidlive).trans hevolves⟩

/-- Dead instructions of a sound program can all be erased. -/
theorem eliminateDead_ok {p : Program} (hp : p.Sound) : ∃ q, eliminateDead p = .ok () q := by
  have hrounds : ∀ (fuel : Nat) (p : Program), p.Sound → ∃ q, eliminateRounds fuel p = .ok () q := by
    intro fuel
    induction fuel with
    | zero => exact fun p _ => ⟨p, rfl⟩
    | succ fuel ih =>
      intro p hp
      obtain ⟨q, herase, hq⟩ := eraseInstrs_ok (hp.nodup_attachedInstrs.filter (isDead p))
        fun i hi => hp.live_of_attached (List.mem_of_mem_filter hi)
      obtain ⟨r, hr⟩ := ih q (hq hp).1
      unfold eliminateRounds
      rw [bind_of_ok (rfl : (get : Edit Program) p = .ok p p)]
      split
      · exact ⟨p, rfl⟩
      · exact ⟨r, (bind_of_ok herase _).trans hr⟩
  exact hrounds _ p hp

end Cleanup

end QirProfile
