import QirProfile.Proofs.Fold

/-!
# Where an operator has a result

An operator on words is undefined for a divisor of zero, for a shift by the width or more, and for a
signed division that leaves the words: the least one divided by -1. `BinaryOp.Defined` says so
without the arithmetic of `Word.binary?`, which looks for the last case among words of 64 bits.
-/

namespace QirProfile

namespace BinaryOp

variable {w : Nat}

/-- A signed division, or its remainder, that leaves the words. -/
structure Leaves (op : BinaryOp) (x y : BitVec w) : Prop where
  divides : op = .sdiv ∨ op = .srem
  least : x = BitVec.intMin w
  divisor : y = BitVec.allOnes w

/-- Whether the result of an operator on words is defined. -/
def Defined (op : BinaryOp) (x y : BitVec w) : Prop :=
  match op with
  | .add | .sub | .mul | .and | .or | .xor => True
  | .udiv | .urem => y ≠ 0
  | .sdiv | .srem => y ≠ 0 ∧ ¬ op.Leaves x y
  | .shl | .lshr | .ashr => y.toNat < w
  | .fadd | .fsub | .fmul | .fdiv => False

end BinaryOp

namespace Word

variable {w : Nat}

/-! ## 1. The least word and -1 -/

theorem toInt_eq_neg_one (hw : 1 ≤ w) (y : BitVec w) : y.toInt = -1 ↔ y = BitVec.allOnes w := by
  have hones : (BitVec.allOnes w).toInt = -1 := by
    rw [BitVec.toInt_allOnes]
    exact if_pos hw
  rw [← hones, BitVec.toInt_inj]

theorem toInt_eq_least (hw : w ≤ 64) (x : BitVec w) :
    x.toInt = least ↔ w = 64 ∧ x = BitVec.intMin w := by
  constructor
  · intro h
    have hbound : -(2 ^ (w - 1) : Int) ≤ least := h ▸ BitVec.le_toInt x
    have hwidth : w = 64 := by
      by_contra hne
      have hpow : (2 ^ (w - 1) : Int) ≤ 2 ^ 62 := by
        exact_mod_cast Nat.pow_le_pow_right (by decide) (by omega)
      have hleast : least = -2 ^ 63 := rfl
      omega
    subst hwidth
    exact ⟨rfl, BitVec.eq_of_toInt_eq h⟩
  · rintro ⟨rfl, rfl⟩
    rfl

/-! ## 2. Signed division -/

theorem divides_iff (hw : 1 ≤ w ∧ w ≤ 64) {op : BinaryOp} (hop : op = .sdiv ∨ op = .srem)
    (x y : BitVec w) : (y.toInt ≠ 0 ∧ ¬ (x.toInt = least ∧ y.toInt = -1)) ↔
      (y ≠ 0 ∧ ¬ op.Leaves x y) ∨ w < 64 ∧ op.Leaves x y := by
  have hzero : y.toInt = 0 ↔ y = 0 := by
    rw [← BitVec.toInt_inj, BitVec.ofNat_eq_ofNat, BitVec.toInt_zero]
  have hleaves : op.Leaves x y ↔ x = BitVec.intMin w ∧ y = BitVec.allOnes w :=
    ⟨fun h => ⟨h.least, h.divisor⟩, fun h => ⟨hop, h.1, h.2⟩⟩
  have hones : y = BitVec.allOnes w → y ≠ 0 := by
    intro hy h
    have hneg := (toInt_eq_neg_one hw.1 y).mpr hy
    rw [hzero.mpr h] at hneg
    cases hneg
  rw [Ne, hzero, toInt_eq_least hw.2, toInt_eq_neg_one hw.1, hleaves]
  rcases Nat.lt_or_eq_of_le hw.2 with hlt | rfl
  · -- in narrower words nothing is the least number of 64 bits
    grind
  · grind

/-! ## 3. All operators -/

/-- At 1 to 64 bits a result is given where the operator is defined, and besides for a division that
    leaves a word of less than 64 bits. -/
theorem binary?_isSome_iff (hw : 1 ≤ w ∧ w ≤ 64) {a b : Int} (ha : normalize a w = a)
    (hb : normalize b w = b) (op : BinaryOp) : (binary? op w a b).isSome = true ↔
      op.Defined (BitVec.ofInt w a) (BitVec.ofInt w b) ∨
        w < 64 ∧ op.Leaves (BitVec.ofInt w a) (BitVec.ofInt w b) := by
  rw [normalize_eq hw] at ha hb
  have hdivides : ∀ {op : BinaryOp}, op = .sdiv ∨ op = .srem →
      (b ≠ 0 ∧ ¬ (a = least ∧ b = -1) ↔
        (BitVec.ofInt w b ≠ 0 ∧ ¬ op.Leaves (BitVec.ofInt w a) (BitVec.ofInt w b)) ∨
          w < 64 ∧ op.Leaves (BitVec.ofInt w a) (BitVec.ofInt w b)) := fun hop => by
    have h := divides_iff hw hop (BitVec.ofInt w a) (BitVec.ofInt w b)
    rwa [ha, hb] at h
  have hzero : (BitVec.ofInt w b).toNat = 0 ↔ BitVec.ofInt w b = 0 := by
    rw [← BitVec.toNat_inj, BitVec.ofNat_eq_ofNat, BitVec.toNat_ofNat, Nat.zero_mod]
  have hshifts : (BitVec.ofInt w b).toNat < min w 64 ↔ (BitVec.ofInt w b).toNat < w := by
    rw [Nat.min_eq_left hw.2]
  unfold binary?
  rw [Option.isSome_map]
  simp only [unsigned_eq hw]
  cases op with
  | add | sub | mul | and | or | xor => exact iff_of_true rfl (.inl trivial)
  | udiv | urem =>
    rw [or_iff_left fun h => h.2.divides.elim nofun nofun]
    exact Option.isSome_ite'.trans (not_congr hzero)
  | sdiv => exact Option.isSome_ite.trans (hdivides (.inl rfl))
  | srem => exact Option.isSome_ite.trans (hdivides (.inr rfl))
  | shl | lshr | ashr =>
    rw [or_iff_left fun h => h.2.divides.elim nofun nofun]
    exact Option.isSome_ite.trans hshifts
  | fadd | fsub | fmul | fdiv =>
    exact iff_of_false nofun fun h => h.elim id fun h => h.2.divides.elim nofun nofun

theorem binary?_isSome_iff_longs : (binary? .sdiv 64 least (-1)).isSome = false ∧
    (binary? .sdiv 1 (-1) (-1)).isSome = true := by
  have hlong := binary?_isSome_iff (w := 64) (a := least) (b := -1) (by decide) (by decide)
    (by decide) .sdiv
  have hbit := binary?_isSome_iff (w := 1) (a := -1) (b := -1) (by decide) (by decide) (by decide)
    .sdiv
  refine ⟨Bool.eq_false_iff.mpr fun h => ?_,
    hbit.mpr (.inr ⟨by decide, .inl rfl, by decide, by decide⟩)⟩
  rcases hlong.mp h with hdefined | hnarrow
  · exact hdefined.2 ⟨.inl rfl, by decide, by decide⟩
  · exact Nat.lt_irrefl 64 hnarrow.1

/-- The least octet divided by -1 is folded. -/
theorem binary?_leaves_octets : binary? .sdiv 8 (-128) (-1) = some (-128) ∧
    binary? .srem 8 (-128) (-1) = some 0 ∧
    ¬ BinaryOp.Defined .sdiv (BitVec.ofInt 8 (-128)) (BitVec.ofInt 8 (-1)) ∧
    ¬ BinaryOp.Defined .srem (BitVec.ofInt 8 (-128)) (BitVec.ofInt 8 (-1)) := by
  have hleaves : ∀ {op : BinaryOp}, op = .sdiv ∨ op = .srem →
      op.Leaves (BitVec.ofInt 8 (-128)) (BitVec.ofInt 8 (-1)) := fun hop =>
    ⟨hop, by decide, by decide⟩
  exact ⟨by decide, by decide, fun h => h.2 (hleaves (.inl rfl)), fun h => h.2 (hleaves (.inr rfl))⟩

end Word

end QirProfile
