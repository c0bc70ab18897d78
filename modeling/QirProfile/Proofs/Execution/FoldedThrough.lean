import QirProfile.Proofs.Execution.FoldedControlFlow

/-!
# Folding a function comes to rest

Two systems fold a function in turns: constants, and the rules of control flow. The second one puts
new instructions in, so the number of instructions does not measure how far folding has come. What
does is the number of forks: no change makes a new one, and every round but the last takes one away.
-/

namespace QirProfile

namespace Program

open Replacing

variable {e : Bool} {p q : Program} {c : FuncId} {id : InstrId} {ids : List InstrId}

/-! ## 1. Constants -/

theorem Neat.foldAway {v : Value} (h : Neat [] p) (hc : (p.func c).erased = false)
    (hid : p.functionOf? id = some c) (hv : p.fold? id = some v) (hq : p.foldAway id v = .ok q) :
    Neat [] q := by
  obtain ⟨hlive, rfl⟩ := foldAway_ok.mp hq
  obtain ⟨hterm, -, hne, hvalue⟩ := fold?_cases hv
  have hflat : v.Flat := by
    rcases hvalue with ⟨bits, n, rfl⟩ | hmem
    · exact Value.flat_int bits n
    · exact h.flat c id hc hid v hmem
  refine h.giveWay hlive hterm hflat hne fun f _ hf => ?_
  obtain rfl : c = f := Option.some.inj (hid.symm.trans hf)
  rcases hvalue with ⟨bits, n, rfl⟩ | hmem
  · exact trivial
  · exact h.linked.operands c id hc hid v hmem

theorem Neat.foldRounds {fuel n : Nat} (h : Neat [] p) (hc : (p.func c).erased = false)
    (hq : foldRounds c fuel p = .ok (q, n)) : Neat [] q := by
  refine (foldRounds_carries (P := fun q => Neat [] q ∧ (q.func c).erased = false)
    (fun q hq => hq.1.sound) (fun q r id v hq hid hv hr => ?_) ⟨h, hc⟩ hq).1
  have hone : Tweaks false c q r := foldAway_tweaks hid hv hr
  exact ⟨hq.1.foldAway hq.2 hid hv hr, (hone.func c).symm ▸ hq.2⟩

theorem Neat.foldConstants (h : Neat [] p) (hc : (p.func c).erased = false) :
    ∃ q n, p.foldConstants c = .ok (q, n) ∧ Neat [] q ∧ q.func c = p.func c := by
  obtain ⟨q, n, hq, -⟩ := foldConstants_ok p c
  have htweaks : Tweaks false c p q := foldRounds_tweaks h.sound hq
  exact ⟨q, n, hq, h.foldRounds hc hq, htweaks.func c⟩

/-! ## 2. Rounds -/

theorem controlFlowRounds_carry {P : Program → Prop}
    (hconstants : ∀ p, P p → ∃ q n, p.foldConstants c = .ok (q, n) ∧ P q)
    (hround : ∀ p, P p → ∃ schedule q r,
      scheduleAll (controlFlowRules e) (p.instrsOf c) p = .ok schedule q ∧
        carryOut schedule q = .ok schedule.length r ∧ P r)
    (hp : P p) (fuel : Nat) :
    ∃ m q, QirProfile.foldRounds (controlFlowRules e) c fuel p = .ok m q ∧ P q := by
  induction fuel generalizing p with
  | zero => exact ⟨0, p, rfl, hp⟩
  | succ fuel ih =>
    obtain ⟨p₁, folded, hfold, hp₁⟩ := hconstants p hp
    obtain ⟨schedule, p₂, p₃, hschedule, hcarry, hp₃⟩ := hround p₁ hp₁
    have hmake : Compile.edit (Edit.tryMake (·.foldConstants c)) p = .ok folded p₁ :=
      compileEdit_ok.mpr (by rw [Edit.tryMake, hfold])
    have hget : (get : Compile Program) p₁ = .ok p₁ p₁ := rfl
    unfold QirProfile.foldRounds
    rw [bind_of_ok hmake, bind_of_ok hget, bind_of_ok hschedule]
    split
    · rename_i hnone
      obtain rfl := List.isEmpty_iff.mp hnone
      cases hcarry
      exact ⟨folded, p₂, rfl, hp₃⟩
    · obtain ⟨m, q, hrounds, hq⟩ := ih hp₃
      refine ⟨folded + schedule.length + m, q, ?_, hq⟩
      rw [bind_of_ok hcarry, bind_of_ok hrounds]
      rfl

theorem Neat.controlFlowRounds (h : Neat [] p) (hc : (p.func c).erased = false) (e : Bool)
    (fuel : Nat) :
    ∃ m q, QirProfile.foldRounds (controlFlowRules e) c fuel p = .ok m q ∧ Neat [] q := by
  have hconstants : ∀ p, Neat [] p ∧ (p.func c).erased = false → ∃ q n,
      p.foldConstants c = .ok (q, n) ∧ Neat [] q ∧ (q.func c).erased = false := by
    rintro p ⟨hp, hlive⟩
    obtain ⟨q, n, hfold, hq, hfunc⟩ := hp.foldConstants hlive
    exact ⟨q, n, hfold, hq, hfunc ▸ hlive⟩
  have hround : ∀ p, Neat [] p ∧ (p.func c).erased = false → ∃ schedule q r,
      scheduleAll (controlFlowRules e) (p.instrsOf c) p = .ok schedule q ∧
        carryOut schedule q = .ok schedule.length r ∧ Neat [] r ∧ (r.func c).erased = false := by
    rintro p ⟨hp, hlive⟩
    have hfits : ∀ b ∈ (p.func c).blocks, p.blockProblems c b = [] := fun b hb =>
      blockProblems_eq_nil.mpr (hp.verified c hlive b hb)
    obtain ⟨schedule, q, r, -, hschedule, hcarry, -, -, hneat⟩ := round_carriedOut hp.sound hfits e
    obtain ⟨htweaks, -⟩ := round_tweaks hp.sound hschedule hcarry
    exact ⟨schedule, q, r, hschedule, hcarry, hneat hp, (htweaks.func c).symm ▸ hlive⟩
  obtain ⟨m, q, hrounds, hq, -⟩ := controlFlowRounds_carry hconstants hround ⟨h, hc⟩ fuel
  exact ⟨m, q, hrounds, hq⟩

end Program

/-! ## 3. Functions in which nothing folds -/

namespace Replacing

open Program

variable {e : Bool} {id : InstrId} {ids : List InstrId} {s : RuleState Unit}

theorem applyFirst_atRest (h : AtRest e (s.program.instr id)) :
    applyFirst (controlFlowRules e) id s = .ok false s := by
  have hprogram : (program : Replacing Unit Program) s = .ok s.program s := rfl
  rw [applyFirst, bind_of_ok hprogram]
  split
  · rfl
  rw [controlFlowRules]
  cases hbranch : match? (σ := Unit) (.of (.branch (Pattern.constInt.as "cond")
      (Pattern.block.as "if_false") (Pattern.block.as "if_true")) settleBranch) s.program id with
  | some captures =>
    obtain ⟨hkind, bits, n, no, yes, hoperands, -⟩ := Pattern.branch_captures hbranch
    exact absurd hoperands (h.branch hkind bits n no yes)
  | none =>
    rw [firstAccepting_of_none hbranch]
    cases e with
    | false => rfl
    | true =>
      rw [if_pos rfl]
      cases hinvoke : match? (σ := Unit) (.of .invoke invokeToCall) s.program id with
      | none => exact firstAccepting_of_none hinvoke
      | some captures =>
        exact firstAccepting_of_false hinvoke rfl
          (invokeToCall_declines (h.invoke rfl (invoke_matched hinvoke)))

theorem applyAll_atRest (h : ∀ i ∈ ids, AtRest e (s.program.instr i)) :
    (ids.forM fun i => discard (applyFirst (controlFlowRules e) i)) s = .ok ⟨⟩ s := by
  induction ids with
  | nil => rfl
  | cons id ids ih =>
    have hone : (discard (applyFirst (controlFlowRules e) id) : Replacing Unit PUnit) s = .ok ⟨⟩ s :=
      (bind_of_ok (applyFirst_atRest (h id List.mem_cons_self)) _).trans rfl
    exact (bind_of_ok hone _).trans (ih fun i hi => h i (List.mem_cons_of_mem _ hi))

end Replacing

namespace Program

open Replacing

variable {e : Bool} {p q : Program} {c : FuncId} {ids : List InstrId}

/-- Nothing in a function folds: no value, no branch on a constant and, where exceptions are ruled
    out, no invoke of a function by its name with two destinations. -/
structure FoldedThrough (assumeNoExcept : Bool) (c : FuncId) (p : Program) : Prop where
  constants : ∀ i ∈ p.instrsOf c, p.fold? i = none
  branches : ∀ i ∈ p.instrsOf c, (p.instr i).kind = .br → ∀ bits n no yes,
    (p.instr i).operands ≠ [.int bits n, .block no, .block yes]
  invokes : assumeNoExcept = true → ∀ i ∈ p.instrsOf c, (p.instr i).kind = .invoke →
    (p.instr i).calledFunction? = none ∨ (p.instr i).invokeDestinations? = none

theorem FoldedThrough.atRest (h : FoldedThrough e c p) {i : InstrId} (hi : i ∈ p.instrsOf c) :
    AtRest e (p.instr i) :=
  ⟨h.branches i hi, fun he => h.invokes he i hi⟩

theorem foldRound_of_none (h : ∀ i ∈ ids, p.fold? i = none) : p.foldRound ids = .ok (p, 0) := by
  induction ids with
  | nil => rfl
  | cons id ids ih =>
    rw [Program.foldRound, h id List.mem_cons_self]
    exact ih fun i hi => h i (List.mem_cons_of_mem _ hi)

theorem FoldedThrough.foldControlFlow (h : FoldedThrough e c p) :
    foldControlFlow (controlFlowRules e) c p = .ok 0 p := by
  have hconstants : p.foldConstants c = .ok (p, 0) := by
    rw [foldConstants, Program.foldRounds, foldRound_of_none h.constants]
    rfl
  have hmake : Compile.edit (Edit.tryMake (·.foldConstants c)) p = .ok 0 p :=
    compileEdit_ok.mpr (by rw [Edit.tryMake, hconstants])
  have hschedule : scheduleAll (controlFlowRules e) (p.instrsOf c) p = .ok [] p := by
    unfold scheduleAll
    dsimp only
    rw [applyAll_atRest (s := ⟨p, [], ()⟩) fun i hi => h.atRest hi]
  have hget : (get : Compile Program) p = .ok p p := rfl
  unfold QirProfile.foldControlFlow
  rw [bind_of_ok hget, QirProfile.foldRounds, bind_of_ok hmake, bind_of_ok hget,
    bind_of_ok hschedule]
  rfl

/-! ## 4. Folding as a whole -/

/-- Folding ends, and nothing is left that it could fold. The program stays sound and verified, and
    a second run does nothing. -/
theorem foldControlFlow_foldsThrough {f : FuncId} (hp : p.Sound) (hverify : p.verify = .ok ())
    (hflat : p.FlatOperands) (hf : (p.func f).erased = true → (p.func f).blocks = [])
    (assumeNoExcept : Bool) :
    ∃ n q, foldControlFlow (controlFlowRules assumeNoExcept) f p = .ok n q ∧
      FoldedThrough assumeNoExcept f q ∧ q.Sound ∧ q.verify = .ok () ∧
      foldControlFlow (controlFlowRules assumeNoExcept) f q = .ok 0 q := by
  cases hlive : (p.func f).erased with
  | true =>
    have hnone : p.instrsOf f = [] := by
      rw [instrsOf, hf hlive]
      rfl
    have hthrough : FoldedThrough assumeNoExcept f p := by
      constructor <;> simp [hnone]
    exact ⟨0, p, hthrough.foldControlFlow, hthrough, hp, hverify, hthrough.foldControlFlow⟩
  | false =>
    have hneat : Neat [] p := (verify_ok.mp hverify).neat hp hflat
    obtain ⟨n, q, hrounds, hq⟩ :=
      hneat.controlFlowRounds hlive assumeNoExcept ((p.instrsOf f).length + 1)
    have hforks : ∀ i, p.functionOf? i = some f → (p.instr i).forks = true → i ∈ p.instrsOf f :=
      fun i hi _ => hp.mem_instrsOf.mpr hi
    obtain ⟨-, hrests⟩ := rounds_tweaks hp hforks (Nat.lt_succ_self _) hrounds
    have hin : ∀ {i}, i ∈ q.instrsOf f → q.functionOf? i = some f := hq.sound.mem_instrsOf.mp
    have hthrough : FoldedThrough assumeNoExcept f q :=
      ⟨fun i hi => (hrests i (hin hi)).1, fun i hi => (hrests i (hin hi)).2.branch,
        fun he i hi => (hrests i (hin hi)).2.invoke he⟩
    have hget : (get : Compile Program) p = .ok p p := rfl
    refine ⟨n, q, ?_, hthrough, hq.sound, verify_ok.mpr hq.verified, hthrough.foldControlFlow⟩
    unfold QirProfile.foldControlFlow
    rw [bind_of_ok hget]
    exact hrounds

/-- A comparison of constants decides a branch. Once its other edge is cut, a phi folds, and that
    decides the next one. -/
def staged : Program where
  name := "staged"
  functions := #[
    ⟨"measure", .int 1, [], false, none, none, [], [], false⟩,
    ⟨"Main", .void, [], false, none, none, [], [⟨0⟩, ⟨1⟩, ⟨2⟩, ⟨3⟩, ⟨4⟩], false⟩]
  blocks := #[
    ⟨some "entry", some ⟨1⟩, [⟨0⟩], false⟩,
    ⟨some "test", some ⟨1⟩, [⟨1⟩, ⟨2⟩], false⟩,
    ⟨some "failed", some ⟨1⟩, [⟨3⟩, ⟨4⟩], false⟩,
    ⟨some "yes", some ⟨1⟩, [⟨5⟩], false⟩,
    ⟨some "no", some ⟨1⟩, [⟨6⟩], false⟩]
  instrs := #[
    ⟨.invoke, .int 1, [.block ⟨1⟩, .block ⟨2⟩, .func ⟨0⟩], some "m", some ⟨0⟩, false⟩,
    ⟨.icmp .eq, .int 1, [.int 32 1, .int 32 1], some "c", some ⟨1⟩, false⟩,
    ⟨.br, .void, [.instr ⟨1⟩, .block ⟨2⟩, .block ⟨3⟩], none, some ⟨1⟩, false⟩,
    ⟨.phi [⟨0⟩, ⟨1⟩], .int 1, [.int 1 (-1), .int 1 0], some "reason", some ⟨2⟩, false⟩,
    ⟨.br, .void, [.instr ⟨3⟩, .block ⟨4⟩, .block ⟨3⟩], none, some ⟨2⟩, false⟩,
    ⟨.ret, .void, [], none, some ⟨3⟩, false⟩,
    ⟨.ret, .void, [], none, some ⟨4⟩, false⟩]

theorem operands_staged (i : InstrId) : (staged.instr i).operands ⊆
    [.block ⟨1⟩, .block ⟨2⟩, .block ⟨3⟩, .block ⟨4⟩, .instr ⟨1⟩, .instr ⟨3⟩, .func ⟨0⟩, .int 32 1,
      .int 1 (-1), .int 1 0] := by
  obtain ⟨i⟩ := i
  match i with
  | 0 | 1 | 2 | 3 | 4 | 5 | 6 => simp [staged, instr]
  | i + 7 =>
    have hbeyond : staged.instr ⟨i + 7⟩ = .tombstone := instr_of_le (Nat.le_add_left 7 i)
    rw [hbeyond]
    exact List.nil_subset _

theorem flatOperands_staged : staged.FlatOperands := by
  have hlocal : ∀ {v : Value}, v.isLocal = true → v.Flat := Value.flat_of_isLocal
  intro f i _ _ v hv
  refine List.forall_mem_cons.mpr ⟨?_, ?_⟩ v (operands_staged i hv)
  · exact hlocal rfl
  simp only [List.forall_mem_cons]
  exact ⟨hlocal rfl, hlocal rfl, hlocal rfl, hlocal rfl, hlocal rfl, Value.flat_func ⟨0⟩,
    Value.flat_int 32 1, Value.flat_int 1 (-1), Value.flat_int 1 0, nofun⟩

theorem foldControlFlow_foldsThrough_staged :
    ∃ n q, foldControlFlow (controlFlowRules false) ⟨1⟩ staged = .ok n q ∧
      FoldedThrough false ⟨1⟩ q ∧ q.verify = .ok () ∧
      (n = 4 ∧ (q.block ⟨0⟩).instrs = [⟨0⟩] ∧ (q.block ⟨1⟩).instrs = [⟨7⟩] ∧
        (q.block ⟨2⟩).instrs = [⟨8⟩] ∧ (q.instr ⟨8⟩).operands = [.block ⟨3⟩]) := by
  obtain ⟨n, q, hfold, hthrough, -, hverify, -⟩ := foldControlFlow_foldsThrough (p := staged)
    (f := ⟨1⟩) (by decide +kernel) (by decide +kernel) flatOperands_staged nofun false
  obtain ⟨n', q', hsame, hafter⟩ := exists_answer
    (r := foldControlFlow (controlFlowRules false) ⟨1⟩ staged)
    (P := fun n q => n = 4 ∧ (q.block ⟨0⟩).instrs = [⟨0⟩] ∧ (q.block ⟨1⟩).instrs = [⟨7⟩] ∧
      (q.block ⟨2⟩).instrs = [⟨8⟩] ∧ (q.instr ⟨8⟩).operands = [.block ⟨3⟩]) (by decide +kernel)
  rw [hfold] at hsame
  cases hsame
  exact ⟨n, q, hfold, hthrough, hverify, hafter⟩

end Program

end QirProfile
