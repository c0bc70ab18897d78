import QirProfile.Proofs.Cleanup.Pruning
import QirProfile.Proofs.Execution.FoldedThrough

/-!
# Folding the constants of a function

A fold turns the uses of an instruction to its value, wherever they stand, and takes the instruction
away. So it may touch any operand of the program; that it does not is due to the verifier, which
keeps each function to its own instructions.
-/

namespace QirProfile

namespace Transform

open Program

theorem FlatConstants.flatOperands {p : Program} (h : FlatConstants p) (hp : p.Sound) :
    p.FlatOperands :=
  fun _ i _ hi => h.operands i (hp.live_of_functionOf hi)

theorem FlatConstants.fold?_flat {p : Program} {id : InstrId} {v : Value} (h : FlatConstants p)
    (hv : p.fold? id = some v) : v.Flat := by
  obtain ⟨-, -, -, ⟨bits, n, rfl⟩ | hmem⟩ := fold?_cases hv
  · exact Value.flat_int bits n
  · exact h.operands id (live_of_fold? hv) v hmem

end Transform

namespace Program

open Transform Cleanup

variable {p q r : Program} {c f g : FuncId} {id i : InstrId} {v : Value}

/-! ## 1. Other functions -/

/-- The body of a function is the same in two programs: its blocks and what stands in them. -/
structure SameBody (p q : Program) (f : FuncId) : Prop where
  func : q.func f = p.func f
  block : ∀ b ∈ (p.func f).blocks, q.block b = p.block b
  instr : ∀ i ∈ p.instrsOf f, q.instr i = p.instr i

theorem SameBody.refl (p : Program) (f : FuncId) : SameBody p p f :=
  ⟨rfl, fun _ _ => rfl, fun _ _ => rfl⟩

theorem SameBody.instrsOf (h : SameBody p q f) : q.instrsOf f = p.instrsOf f := by
  unfold Program.instrsOf
  rw [h.func]
  exact List.flatMap_congr fun b hb => by rw [h.block b hb]

theorem SameBody.trans (h₁ : SameBody p q f) (h₂ : SameBody q r f) : SameBody p r f where
  func := h₂.func.trans h₁.func
  block b hb := (h₂.block b (h₁.func ▸ hb)).trans (h₁.block b hb)
  instr i hi := (h₂.instr i (h₁.instrsOf ▸ hi)).trans (h₁.instr i hi)

theorem Neat.not_uses (h : Neat [] p) (hg : (p.func g).erased = false)
    (hi : p.functionOf? i = some g) (hid : p.functionOf? id ≠ some g) :
    (p.instr i).uses (.instr id) = false := by
  refine Bool.eq_false_iff.mpr fun huses => hid ?_
  obtain ⟨u, hu, hmentions⟩ := Instr.uses_iff.mp huses
  obtain rfl := h.flat g i hg hi u hu (.instr id) rfl hmentions
  exact (h.linked.operands g i hg hi _ hu).resolve_right not_false

theorem Neat.sameBody_giveWay (h : Neat [] p) (hg : (p.func g).erased = false)
    (hid : p.functionOf? id ≠ some g) :
    SameBody p ((p.replaceUses (.instr id) v).dropInstr id) g := by
  have hframe := sameFrame_replaceUses p (.instr id) v
  have hin : ∀ {i}, i ∈ p.instrsOf g → p.functionOf? i = some g := h.sound.mem_instrsOf.mp
  refine ⟨by rw [func_dropInstr, func_replaceUses], fun b hb => ?_, fun i hi => ?_⟩
  · rw [block_dropInstr, if_neg]
    · rfl
    · rw [(hframe.instr id).1]
      intro hparent
      exact hid (Option.bind_eq_some_iff.mpr ⟨b, hparent, h.sound.mem_blocks.mp hb⟩)
  · have hne : id ≠ i := by
      rintro rfl
      exact hid (hin hi)
    rw [instr_dropInstr_ne hne, instr_replaceUses, h.not_uses hg (hin hi) hid, Bool.and_false,
      if_neg Bool.false_ne_true]

/-! ## 2. One fold -/

/-- What may be said of a program while the constants of a function fold: it is as verified and as
    flat as before, what is left keeps its order, and no other function has changed. -/
structure FoldsInside (c : FuncId) (p q : Program) : Prop where
  neat : Neat [] q
  flat : FlatConstants q
  pruned : Pruned p q
  others : ∀ g, g ≠ c → (p.func g).erased = false → SameBody p q g

theorem FoldsInside.refl (h : Neat [] p) (hflat : FlatConstants p) (c : FuncId) :
    FoldsInside c p p :=
  ⟨h, hflat, .refl h.sound, fun g _ _ => .refl p g⟩

theorem FoldsInside.foldAway (h : FoldsInside c p q) (hid : q.functionOf? id = some c)
    (hv : q.fold? id = some v) (hr : q.foldAway id v = .ok r) : FoldsInside c p r := by
  obtain ⟨hlive, rfl⟩ := foldAway_ok.mp hr
  obtain ⟨hterm, -, hne, hvalue⟩ := fold?_cases hv
  have hflat := h.flat.fold?_flat hv
  refine
    { neat := h.neat.giveWay hlive hterm hflat hne fun f hf hin => ?_
      flat := h.flat.giveWay (gaveWay_drop h.neat.sound hlive) hflat
      pruned := h.pruned.trans (.giveWay h.neat.sound hlive v)
      others := fun g hg hlive => ?_ }
  · rcases hvalue with ⟨bits, n, rfl⟩ | hmem
    · exact trivial
    · exact h.neat.linked.operands f id hf hin v hmem
  · refine (h.others g hg hlive).trans (h.neat.sameBody_giveWay (h.pruned.func g ▸ hlive) ?_)
    rw [hid]
    exact fun heq => hg (Option.some.inj heq).symm

theorem FoldsInside.foldRounds {fuel n : Nat} (h : FoldsInside c p p)
    (hq : foldRounds c fuel p = .ok (q, n)) : FoldsInside c p q :=
  foldRounds_carries (P := FoldsInside c p) (fun _ hr => hr.neat.sound)
    (fun _ _ _ _ hr hid hv haway => hr.foldAway hid hv haway) h hq

theorem foldRounds_counts {fuel n : Nat} (hp : p.Sound) (hq : foldRounds c fuel p = .ok (q, n)) :
    (q.instrsOf c).length + n = (p.instrsOf c).length := by
  induction fuel generalizing p n with
  | zero =>
    cases hq
    rfl
  | succ fuel ih =>
    unfold Program.foldRounds at hq
    obtain ⟨⟨p₁, m⟩, h₁, hq⟩ := except_bind_ok.mp hq
    obtain ⟨hlength, -⟩ := foldRound_counts hp hp.inside h₁
    dsimp only at hq
    split at hq
    · rename_i hm
      cases hq
      rwa [hm] at hlength
    · obtain ⟨⟨p₂, k⟩, h₂, hq⟩ := except_bind_ok.mp hq
      cases hq
      have hp₁ : p₁.Sound := foldRound_carries (fun _ hr => hr)
        (fun _ _ _ _ hr hid _ haway => (foldAway_spares hr hid haway).1) hp hp.inside h₁
      have hrest := ih hp₁ h₂
      omega

theorem foldConstants_of_none (h : ∀ i ∈ p.instrsOf c, p.fold? i = none) :
    p.foldConstants c = .ok (p, 0) := by
  rw [foldConstants, Program.foldRounds, foldRound_of_none h]
  rfl

/-- What folding the constants of a function has done when it has taken `n` instructions away. -/
structure FoldedConstants (c : FuncId) (p : Program) (n : Nat) (q : Program) : Prop where
  count : (q.instrsOf c).length + n = (p.instrsOf c).length
  /-- Blocks list what they listed, without what is gone. -/
  pruned : Pruned p q
  order : (q.instrsOf c).Sublist (p.instrsOf c)
  rest : ∀ i ∈ q.instrsOf c, q.fold? i = none
  again : q.foldConstants c = .ok (q, 0)
  others : ∀ g, g ≠ c → (p.func g).erased = false → SameBody p q g
  sound : q.Sound
  verified : q.verify = .ok ()

/-- Folding a function ends with nothing left to fold, in other functions changes only uses, and
    keeps the program verified. -/
theorem foldConstants_comesToRest (hp : p.Sound) (hverify : p.verify = .ok ())
    (hflat : FlatConstants p) (f : FuncId) :
    ∃ q n, p.foldConstants f = .ok (q, n) ∧ FoldedConstants f p n q := by
  obtain ⟨q, n, hq, -⟩ := foldConstants_ok p f
  have hneat := (verify_ok.mp hverify).neat hp (hflat.flatOperands hp)
  have hinside := (FoldsInside.refl hneat hflat f).foldRounds hq
  have hrest := foldRounds_fixed hp (Nat.lt_succ_self _) hq
  exact ⟨q, n, hq,
    { count := foldRounds_counts hp hq
      pruned := hinside.pruned
      order := hinside.pruned.instrsOf f ▸ List.filter_sublist
      rest := hrest
      again := foldConstants_of_none hrest
      others := hinside.others
      sound := hinside.neat.sound
      verified := verify_ok.mpr hinside.neat.verified }⟩

/-- In `f` a phi gives way to a sum that stands below it, and once the sum is known a comparison is.
    The sum of `g` folds as well, but not with `f`. -/
def deferred : Program where
  name := "deferred"
  functions := #[
    ⟨"f", .int 1, [], false, none, none, [], [⟨0⟩, ⟨1⟩, ⟨2⟩], false⟩,
    ⟨"g", .int 64, [], false, none, none, [], [⟨3⟩], false⟩]
  blocks := #[
    ⟨some "entry", some ⟨0⟩, [⟨0⟩], false⟩,
    ⟨some "last", some ⟨0⟩, [⟨1⟩, ⟨2⟩, ⟨3⟩], false⟩,
    ⟨some "sum", some ⟨0⟩, [⟨4⟩, ⟨5⟩], false⟩,
    ⟨some "entry", some ⟨1⟩, [⟨6⟩, ⟨7⟩], false⟩]
  instrs := #[
    ⟨.br, .void, [.block ⟨2⟩], none, some ⟨0⟩, false⟩,
    ⟨.phi [⟨2⟩], .int 64, [.instr ⟨4⟩], some "x", some ⟨1⟩, false⟩,
    ⟨.icmp .eq, .int 1, [.instr ⟨1⟩, .int 64 3], some "c", some ⟨1⟩, false⟩,
    ⟨.ret, .void, [.instr ⟨2⟩], none, some ⟨1⟩, false⟩,
    ⟨.binary .add, .int 64, [.int 64 1, .int 64 2], some "s", some ⟨2⟩, false⟩,
    ⟨.br, .void, [.block ⟨1⟩], none, some ⟨2⟩, false⟩,
    ⟨.binary .add, .int 64, [.int 64 1, .int 64 2], some "s", some ⟨3⟩, false⟩,
    ⟨.ret, .void, [.instr ⟨6⟩], none, some ⟨3⟩, false⟩]

theorem flatConstants_deferred : FlatConstants deferred := by
  refine ⟨fun i hi v hv => ?_, fun g v hv => ?_⟩
  · have hcases : ∀ k < deferred.instrs.size, ∀ v ∈ (deferred.instr ⟨k⟩).operands,
        v.isLocal = true ∨ v ∈ [Value.int 64 1, .int 64 2, .int 64 3] := by
      decide
    rcases hcases i.index (instr_lt_of_live hi) v hv with h | h
    · exact Value.flat_of_isLocal h
    · simp only [List.mem_cons, List.not_mem_nil, or_false] at h
      rcases h with rfl | rfl | rfl <;> exact Value.flat_int _ _
  · cases hv

theorem foldConstants_comesToRest_deferred :
    ∃ q, deferred.foldConstants ⟨0⟩ = .ok (q, 3) ∧ FoldedConstants ⟨0⟩ deferred 3 q ∧
      q.instrsOf ⟨0⟩ = [⟨0⟩, ⟨3⟩, ⟨5⟩] ∧ (q.instr ⟨3⟩).operands = [.int 1 (-1)] := by
  obtain ⟨q, n, hfold, hall⟩ := foldConstants_comesToRest (p := deferred) (by decide +kernel)
    (by decide +kernel) flatConstants_deferred ⟨0⟩
  have hresult : (deferred.foldConstants ⟨0⟩).toOption.any (fun r => r.2 = 3 ∧
      r.1.instrsOf ⟨0⟩ = [⟨0⟩, ⟨3⟩, ⟨5⟩] ∧ (r.1.instr ⟨3⟩).operands = [.int 1 (-1)]) := by
    decide +kernel
  rw [hfold] at hresult
  obtain ⟨rfl, hlist, hoperands⟩ := of_decide_eq_true hresult
  exact ⟨q, hfold, hall, hlist, hoperands⟩

end Program

end QirProfile
