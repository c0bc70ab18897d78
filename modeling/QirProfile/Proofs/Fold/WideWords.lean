import QirProfile.Proofs.Fold

/-!
# Folding words of more than 64 bits

An integer constant of more than 64 bits is held as its 64 lowest bits, and stands for their sign
extension. Folding computes with these 64 bits only. `BinaryOp.StaysLow` says, operator by operator,
when the result is that of all bits.
-/

namespace QirProfile

variable {k j m : Nat} {op : BinaryOp} {a n : Int}

/-- The result of an operator on wide words is the sign extension of what the 64 lowest bits of the
    operands give: a sum, a difference, a product or a left shift that is a signed word of 64 bits
    again; and a right shift, a quotient or a remainder without sign of a number that is not
    negative, or where its upper bits do not count. -/
def BinaryOp.StaysLow (op : BinaryOp) (w : Nat) (a b : Int) : Prop :=
  match op with
  | .add => Word.isSigned (a + b) = true
  | .sub => Word.isSigned (a - b) = true
  | .mul => Word.isSigned ((a * b).bmod (span w)) = true
  | .shl => Word.isSigned ((a * span b.toNat).bmod (span w)) = true
  | .lshr => 0 ≤ a ∨ b = 0
  | .udiv => 0 ≤ a ∨ b < 2
  | .urem => 0 ≤ a ∨ b < 0 ∨ b ∣ (span w : Int) - span 64
  | _ => True

namespace Word

variable {w : Nat} {a b n : Int}

/-! ## 1. The 64 lowest bits -/

theorem isSigned_iff : isSigned n = true ↔ -2 ^ 63 ≤ n ∧ n < 2 ^ 63 := by
  have hleast : least = -2 ^ 63 := rfl
  have hgreatest : greatest = 2 ^ 63 - 1 := rfl
  simp only [isSigned, hleast, hgreatest, Bool.and_eq_true, decide_eq_true_eq]
  omega

theorem bits_wide (h : 64 < w) : bits w = 64 := if_pos (.inr h.le)

theorem normalize_wide (h : 64 < w) (n : Int) : normalize n w = n.bmod (2 ^ 64) := by
  rw [normalize, bits_wide h]
  rfl

theorem unsigned_wide (h : 64 < w) (n : Int) : unsigned n w = (n % 2 ^ 64).toNat := by
  rw [unsigned, bits_wide h]
  rfl

theorem two_mul_span_le (h : 64 < w) : 2 * 2 ^ 64 ≤ 2 ^ w := by
  have : 2 ^ 65 ≤ 2 ^ w := Nat.pow_le_pow_right (by decide) h
  omega

theorem isSigned_normalize (n : Int) (w : Nat) : isSigned (normalize n w) = true := by
  have hbits : bits w ≤ 64 := by
    unfold bits
    split <;> omega
  have hspan : span (bits w) ≤ 2 ^ 64 := Nat.pow_le_pow_right (by decide) hbits
  have hpos : 0 < span (bits w) := Nat.two_pow_pos _
  have hle : -((span (bits w) : Int) / 2) ≤ normalize n w := Int.le_bmod hpos
  have hlt : normalize n w < ((span (bits w) : Int) + 1) / 2 := Int.bmod_lt hpos
  rw [isSigned_iff]
  omega

theorem isSigned_of_normalize (h : normalize n w = n) : isSigned n = true :=
  h ▸ isSigned_normalize n w

theorem normalize_of_isSigned (h : 64 < w) (hn : isSigned n = true) : normalize n w = n := by
  rw [isSigned_iff] at hn
  rw [normalize_wide h]
  exact Int.bmod_eq_of_le (by omega) (by omega)

theorem bmod_wide (h : 64 < w) (hlow : -2 ^ 64 ≤ n) (hhigh : n < 2 ^ 64) : n.bmod (2 ^ w) = n := by
  have hspan := two_mul_span_le h
  exact Int.bmod_eq_of_le (by omega) (by omega)

theorem toInt_ofInt_wide (h : 64 < w) (hn : isSigned n = true) : (BitVec.ofInt w n).toInt = n := by
  rw [isSigned_iff] at hn
  rw [BitVec.toInt_ofInt]
  exact bmod_wide h (by omega) (by omega)

theorem ofInt_normalize_iff (h : 64 < w) (n : Int) :
    BitVec.ofInt w (normalize n w) = BitVec.ofInt w n ↔ isSigned (BitVec.ofInt w n).toInt = true := by
  constructor
  · intro heq
    rw [← heq, toInt_ofInt_wide h (isSigned_normalize n w)]
    exact isSigned_normalize n w
  · intro hsigned
    have hlow : normalize (BitVec.ofInt w n).toInt w = normalize n w := by
      rw [normalize_wide h, normalize_wide h, BitVec.toInt_ofInt]
      exact Int.bmod_bmod_of_dvd (Nat.pow_dvd_pow 2 h.le)
    rw [← hlow, normalize_of_isSigned h hsigned, BitVec.ofInt_toInt]

/-! ## 2. Readings without sign -/

/-- The unsigned reading, among words of `w` bits, of the sign extension of a word of 64 bits with
    this unsigned reading. -/
def extended (w k : Nat) : Nat := if k < 2 ^ 63 then k else k + (2 ^ w - 2 ^ 64)

theorem toNat_ofInt_normalize (h : 64 < w) (hk : k < 2 ^ 64) :
    (BitVec.ofInt w (normalize k w)).toNat = extended w k := by
  have hspan := two_mul_span_le h
  rw [BitVec.toNat_ofInt, normalize_wide h, extended]
  split
  case isTrue hlow =>
    rw [Int.bmod_eq_of_le (by omega) (by omega), Int.emod_eq_of_lt (by omega) (by omega),
      Int.toNat_natCast]
  case isFalse hhigh =>
    have hneg : (k : Int).bmod (2 ^ 64) = k - 2 ^ 64 := by
      rw [Int.bmod]
      omega
    have hup : ((k : Int) - 2 ^ 64) % ((2 ^ w : Nat) : Int) = k - 2 ^ 64 + (2 ^ w : Nat) := by
      rw [← Int.add_emod_right]
      exact Int.emod_eq_of_lt (by omega) (by omega)
    rw [hneg, hup]
    omega

theorem unsigned_lt (h : 64 < w) (n : Int) : unsigned n w < 2 ^ 64 := by
  rw [unsigned_wide h]
  omega

theorem normalize_unsigned (h : 64 < w) (n : Int) : normalize (unsigned n w) w = normalize n w := by
  rw [unsigned_wide h, Int.toNat_of_nonneg (by omega), normalize_wide h, normalize_wide h]
  exact Int.emod_bmod n (2 ^ 64)

theorem toNat_ofInt_wide (h : 64 < w) (hn : isSigned n = true) :
    (BitVec.ofInt w n).toNat = extended w (unsigned n w) := by
  rw [← toNat_ofInt_normalize h (unsigned_lt h n), normalize_unsigned h, normalize_of_isSigned h hn]

theorem unsigned_of_nonneg (h : 64 < w) (hn : isSigned n = true) (hpos : 0 ≤ n) :
    unsigned n w = n.toNat := by
  rw [isSigned_iff] at hn
  rw [unsigned_wide h, Int.emod_eq_of_lt hpos (by omega)]

theorem unsigned_lt_half (h : 64 < w) (hn : isSigned n = true) : unsigned n w < 2 ^ 63 ↔ 0 ≤ n := by
  rw [isSigned_iff] at hn
  rw [unsigned_wide h]
  omega

theorem extended_lt (h : 64 < w) : extended w j < extended w k ↔ j < k := by
  have hspan := two_mul_span_le h
  unfold extended
  split <;> split <;> omega

theorem extended_le (h : 64 < w) : extended w j ≤ extended w k ↔ j ≤ k := by
  rw [← Nat.not_lt, extended_lt h, Nat.not_lt]

theorem extended_of_lt (hk : k < 2 ^ 63) : extended w k = k := if_pos hk

theorem extended_div_lt (h : 64 < w) (hj : j < 2 ^ 64) (hhigh : 2 ^ 63 ≤ j)
    (htwo : 2 ≤ k) (hk : k ≤ 2 ^ 64) : extended w (j / k) < extended w j / k := by
  have hspan := two_mul_span_le h
  have hhalf : j / k ≤ j / 2 := Nat.div_le_div_left htwo (by decide)
  have hmore : j / k + 1 ≤ extended w j / k := by
    rw [extended, if_neg (by omega), ← Nat.add_div_right j (by omega)]
    exact Nat.div_le_div_right (by omega)
  rw [extended_of_lt (by omega)]
  omega

theorem extended_div (h : 64 < w) (hj : j < 2 ^ 64) (hpos : 0 < k) :
    extended w (j / k) = extended w j / extended w k ↔ j < 2 ^ 63 ∨ k < 2 ∨ 2 ^ 63 ≤ k := by
  have hspan := two_mul_span_le h
  rcases Nat.lt_or_ge k (2 ^ 63) with hk | hk
  · rw [extended_of_lt hk]
    rcases Nat.lt_or_ge j (2 ^ 63) with hlow | hhigh
    · rw [extended_of_lt hlow, extended_of_lt ((Nat.div_le_self j k).trans_lt hlow)]
      exact iff_of_true rfl (.inl hlow)
    · rcases Nat.lt_or_ge k 2 with hone | htwo
      · obtain rfl : k = 1 := by omega
        rw [Nat.div_one, Nat.div_one]
        exact iff_of_true rfl (.inr (.inl hone))
      · exact iff_of_false (extended_div_lt h hj hhigh htwo (by omega)).ne (by omega)
  · refine iff_of_true ?_ (.inr (.inr hk))
    rcases Nat.lt_or_ge j k with hless | hmore
    · rw [Nat.div_eq_of_lt hless, Nat.div_eq_of_lt ((extended_lt h).mpr hless)]
      rfl
    · have hquot : j / k = 1 := Nat.div_eq_of_lt_le (by omega) (by omega)
      rw [hquot, extended_of_lt (by decide)]
      refine (Nat.div_eq_of_lt_le ?_ ?_).symm
      · rw [extended, extended, if_neg (by omega), if_neg (by omega)]
        omega
      · rw [extended, extended, if_neg (by omega), if_neg (by omega)]
        omega

theorem extended_mod (h : 64 < w) (hj : j < 2 ^ 64) (hpos : 0 < k) :
    extended w (j % k) = extended w j % extended w k ↔
      j < 2 ^ 63 ∨ 2 ^ 63 ≤ k ∨ k ∣ 2 ^ w - 2 ^ 64 := by
  have hspan := two_mul_span_le h
  rcases Nat.lt_or_ge k (2 ^ 63) with hk | hk
  · rw [extended_of_lt hk, extended_of_lt ((Nat.mod_lt j hpos).trans hk)]
    rcases Nat.lt_or_ge j (2 ^ 63) with hlow | hhigh
    · rw [extended_of_lt hlow]
      exact iff_of_true rfl (.inl hlow)
    · rw [extended, if_neg (by omega)]
      constructor
      · intro heq
        refine .inr (.inr ?_)
        have := (Nat.modEq_iff_dvd' (Nat.le_add_right j (2 ^ w - 2 ^ 64))).mp heq
        rwa [Nat.add_sub_cancel_left] at this
      · rintro (hlow | hlarge | hdvd)
        · omega
        · omega
        · obtain ⟨q, hq⟩ := hdvd
          rw [hq, Nat.add_mul_mod_self_left]
  · refine iff_of_true ?_ (.inr (.inl hk))
    rcases Nat.lt_or_ge j k with hless | hmore
    · rw [Nat.mod_eq_of_lt hless, Nat.mod_eq_of_lt ((extended_lt h).mpr hless)]
    · have hrest : j % k = j - k := by
        rw [Nat.mod_eq_sub_mod hmore, Nat.mod_eq_of_lt (by omega)]
      rw [hrest, extended_of_lt (by omega), extended, extended, if_neg (by omega), if_neg (by omega),
        Nat.mod_eq_sub_mod (by omega), Nat.mod_eq_of_lt (by omega)]
      omega

theorem extended_shift (h : 64 < w) {s : Nat} (hj : j < 2 ^ 64) (hs : s < 64) :
    extended w (j / 2 ^ s) = extended w j / 2 ^ s ↔ j < 2 ^ 63 ∨ s = 0 := by
  rcases Nat.lt_or_ge j (2 ^ 63) with hlow | hhigh
  · rw [extended_of_lt hlow, extended_of_lt ((Nat.div_le_self j _).trans_lt hlow)]
    exact iff_of_true rfl (.inl hlow)
  · rcases Nat.eq_zero_or_pos s with rfl | hpos
    · rw [pow_zero, Nat.div_one, Nat.div_one]
      exact iff_of_true rfl (.inr rfl)
    · have htwo : 2 ^ 1 ≤ 2 ^ s := Nat.pow_le_pow_right (by decide) hpos
      have hle : 2 ^ s ≤ 2 ^ 64 := Nat.pow_le_pow_right (by decide) hs.le
      exact iff_of_false (extended_div_lt h hj hhigh htwo hle).ne (by omega)

/-! ## 3. Results that are signed words -/

theorem isSigned_tdiv (ha : isSigned a = true) (hdivides : b ≠ 0 ∧ ¬(a = least ∧ b = -1)) :
    isSigned (a.tdiv b) = true := by
  have hleast : least = -2 ^ 63 := rfl
  rw [isSigned_iff] at ha ⊢
  by_cases hone : b = 1
  · rw [hone, Int.tdiv_one]
    exact ha
  by_cases ha' : a = least
  · have hhalf : (a.tdiv b).natAbs ≤ a.natAbs / 2 := by
      rw [Int.natAbs_tdiv]
      exact Nat.div_le_div_left (by omega) (by decide)
    omega
  · have hle := Int.natAbs_tdiv_le_natAbs a b
    omega

theorem isSigned_tmod (hb : isSigned b = true) (hne : b ≠ 0) : isSigned (a.tmod b) = true := by
  rw [isSigned_iff] at hb ⊢
  have hlt : (a.tmod b).natAbs < b.natAbs := by
    rw [Int.natAbs_tmod]
    exact Nat.mod_lt _ (by omega)
  omega

theorem isSigned_div_span (ha : isSigned a = true) (s : Nat) : isSigned (a / span s) = true := by
  have hpos : 0 < (span s : Int) := by exact_mod_cast Nat.two_pow_pos s
  have hle := Int.natAbs_ediv_le_natAbs a (span s)
  have hneg : a < 0 → a / span s < 0 := fun h => Int.ediv_neg_of_neg_of_pos h hpos
  rw [isSigned_iff] at ha ⊢
  omega

theorem ofInt_bitwise_wide (h : 64 < w) (ha : isSigned a = true) (hb : isSigned b = true)
    {f : Nat → Nat → Nat} (g : ∀ m : Nat, BitVec m → BitVec m → BitVec m)
    (hfg : ∀ i j, BitVec.ofNat 64 (f i j) = g 64 (.ofNat 64 i) (.ofNat 64 j))
    (hextend : ∀ x y, (g 64 x y).signExtend w = g w (x.signExtend w) (y.signExtend w)) :
    BitVec.ofInt w (normalize (bitwise f a b) w) = g w (BitVec.ofInt w a) (BitVec.ofInt w b) := by
  have hword : ∀ {n : Int}, isSigned n = true → (BitVec.ofInt 64 n).toInt = n := fun {n} hn => by
    rw [isSigned_iff] at hn
    rw [BitVec.toInt_ofInt]
    exact Int.bmod_eq_of_le (by omega) (by omega)
  have hextended : ∀ n : Int, BitVec.ofInt w (normalize n w) = (BitVec.ofInt 64 n).signExtend w := by
    intro n
    rw [BitVec.signExtend, BitVec.toInt_ofInt, normalize_wide h]
  have hlow := ofInt_bitwise le_rfl hfg (BitVec.ofInt 64 a) (BitVec.ofInt 64 b)
  rw [hword ha, hword hb] at hlow
  rw [hextended, hlow, hextend, ← hextended, ← hextended, normalize_of_isSigned h ha,
    normalize_of_isSigned h hb]

/-! ## 4. Operators -/

theorem shift_count (h : 64 < w) (hb : isSigned b = true) (hs : unsigned b w < min w 64) :
    0 ≤ b ∧ unsigned b w = b.toNat ∧ (BitVec.ofInt w b).toNat = b.toNat ∧ b.toNat < 64 := by
  have hpos : 0 ≤ b := (unsigned_lt_half h hb).mp (by omega)
  have hcount := unsigned_of_nonneg h hb hpos
  refine ⟨hpos, hcount, ?_, by omega⟩
  rw [toNat_ofInt_wide h hb, hcount, extended_of_lt (by omega)]

theorem unsigned_divisor_iff (h : 64 < w) (hb : isSigned b = true) :
    unsigned b w < 2 ∨ 2 ^ 63 ≤ unsigned b w ↔ b < 2 := by
  have hhalf := unsigned_lt_half h hb
  by_cases hpos : 0 ≤ b
  · have hcount := unsigned_of_nonneg h hb hpos
    omega
  · omega

theorem unsigned_dvd_iff (h : 64 < w) (hb : isSigned b = true) :
    2 ^ 63 ≤ unsigned b w ∨ unsigned b w ∣ 2 ^ w - 2 ^ 64 ↔
      b < 0 ∨ b ∣ (span w : Int) - span 64 := by
  have hhalf := unsigned_lt_half h hb
  by_cases hpos : 0 ≤ b
  · have hle : 2 ^ 64 ≤ 2 ^ w := Nat.pow_le_pow_right (by decide) h.le
    have hcast : (span w : Int) - span 64 = ((2 ^ w - 2 ^ 64 : Nat) : Int) := by
      rw [Int.natCast_sub hle]
      rfl
    have hcount := unsigned_of_nonneg h hb hpos
    rw [hcast, hcount, ← Int.natCast_dvd_natCast, Int.toNat_of_nonneg hpos]
    refine or_congr_left ?_
    omega
  · exact iff_of_true (.inl (by omega)) (.inl (by omega))

theorem ofInt_result_iff (h : 64 < w) {m : Int} {r : BitVec w} (hr : BitVec.ofInt w m = r) :
    some r = some (BitVec.ofInt w (normalize m w)) ↔ isSigned (m.bmod (span w)) = true := by
  subst hr
  rw [Option.some_inj, eq_comm, ofInt_normalize_iff h, BitVec.toInt_ofInt]
  rfl

theorem ofInt_result (h : 64 < w) {m : Int} {r : BitVec w} (hr : BitVec.ofInt w m = r)
    (hm : isSigned m = true) : some r = some (BitVec.ofInt w (normalize m w)) := by
  rw [normalize_of_isSigned h hm, hr]

theorem ofNat_result_iff (h : 64 < w) {r : BitVec w} (hk : k < 2 ^ 64) :
    some r = some (BitVec.ofInt w (normalize k w)) ↔ extended w k = r.toNat := by
  rw [Option.some_inj, ← BitVec.toNat_inj, toNat_ofInt_normalize h hk, eq_comm]

theorem binary?_wide_iff (h : 64 < w) (ha : isSigned a = true) (hb : isSigned b = true)
    (hn : binary? op w a b = some n) :
    op.onWords? (BitVec.ofInt w a) (BitVec.ofInt w b) = some (BitVec.ofInt w n) ↔
      op.StaysLow w a b := by
  have hx := toInt_ofInt_wide h ha
  have hy := toInt_ofInt_wide h hb
  have hux := toNat_ofInt_wide h ha
  have huy := toNat_ofInt_wide h hb
  have hla := unsigned_lt h a
  have hsmall : ∀ {k : Nat}, k ≤ unsigned a w → k < 2 ^ 64 := fun hk => hk.trans_lt (unsigned_lt h a)
  have hzero : BitVec.ofInt w b = 0 → b = 0 := fun hword => by
    rw [← hy, hword]
    exact BitVec.toInt_zero
  have hnone : BitVec.ofInt w b = 0 → unsigned b w = 0 := fun hword => by
    rw [hzero hword, unsigned_wide h]
    rfl
  have hdividend : unsigned a w < 2 ^ 63 ↔ 0 ≤ a := unsigned_lt_half h ha
  have hbound := isSigned_iff.mp ha
  have hbound' := isSigned_iff.mp hb
  unfold binary? at hn
  obtain ⟨m, hm, rfl⟩ := Option.map_eq_some_iff.mp hn
  cases op with
  | add =>
    cases hm
    have hlow := ofInt_result_iff h (BitVec.ofInt_add a b)
    rwa [show (a + b).bmod (span w) = a + b from bmod_wide h (by omega) (by omega)] at hlow
  | sub =>
    cases hm
    have hsub : BitVec.ofInt w (a - b) = BitVec.ofInt w a - BitVec.ofInt w b := by
      apply BitVec.eq_of_toInt_eq
      rw [BitVec.toInt_ofInt, BitVec.toInt_sub, hx, hy]
    have hlow := ofInt_result_iff h hsub
    rwa [show (a - b).bmod (span w) = a - b from bmod_wide h (by omega) (by omega)] at hlow
  | mul =>
    cases hm
    exact ofInt_result_iff h (BitVec.ofInt_mul a b)
  | udiv =>
    obtain ⟨hne, hm⟩ := Option.ite_none_left_eq_some.mp hm
    cases hm
    rw [BinaryOp.onWords?, if_neg (hne ∘ hnone), ofNat_result_iff h (hsmall (Nat.div_le_self _ _)),
      BitVec.toNat_udiv, hux, huy, extended_div h (unsigned_lt h a) (Nat.pos_of_ne_zero hne),
      hdividend]
    exact or_congr_right (unsigned_divisor_iff h hb)
  | sdiv =>
    obtain ⟨hdivides, hm⟩ := Option.ite_none_right_eq_some.mp hm
    cases hm
    rw [BinaryOp.onWords?, if_neg (hdivides.1 ∘ hzero)]
    refine iff_of_true (ofInt_result h (BitVec.eq_of_toInt_eq ?_) (isSigned_tdiv ha hdivides)) trivial
    rw [BitVec.toInt_ofInt, BitVec.toInt_sdiv, hx, hy]
  | urem =>
    obtain ⟨hne, hm⟩ := Option.ite_none_left_eq_some.mp hm
    cases hm
    rw [BinaryOp.onWords?, if_neg (hne ∘ hnone), ofNat_result_iff h (hsmall (Nat.mod_le _ _)),
      BitVec.toNat_umod, hux, huy, extended_mod h (unsigned_lt h a) (Nat.pos_of_ne_zero hne),
      hdividend]
    exact or_congr_right (unsigned_dvd_iff h hb)
  | srem =>
    obtain ⟨hdivides, hm⟩ := Option.ite_none_right_eq_some.mp hm
    cases hm
    rw [BinaryOp.onWords?, if_neg (hdivides.1 ∘ hzero)]
    refine iff_of_true (ofInt_result h ?_ (isSigned_tmod hb hdivides.1)) trivial
    rw [← hx, ← hy, ← BitVec.toInt_srem, BitVec.ofInt_toInt, BitVec.ofInt_toInt, BitVec.ofInt_toInt]
  | shl =>
    obtain ⟨hs, hm⟩ := Option.ite_none_right_eq_some.mp hm
    cases hm
    obtain ⟨hpos, hcount, hword, hlt⟩ := shift_count h hb hs
    rw [BinaryOp.onWords?, hword, if_pos (hlt.trans h), hcount]
    have hshift := ofInt_mul_span (BitVec.ofInt w a) b.toNat
    rw [hx] at hshift
    exact ofInt_result_iff h hshift
  | lshr =>
    obtain ⟨hs, hm⟩ := Option.ite_none_right_eq_some.mp hm
    cases hm
    obtain ⟨hpos, hcount, hword, hlt⟩ := shift_count h hb hs
    rw [BinaryOp.onWords?, hword, if_pos (hlt.trans h), hcount,
      ofNat_result_iff h (hsmall (Nat.div_le_self _ _)), BitVec.toNat_ushiftRight,
      Nat.shiftRight_eq_div_pow, hux]
    refine (extended_shift h (unsigned_lt h a) hlt).trans (or_congr hdividend ?_)
    omega
  | ashr =>
    obtain ⟨hs, hm⟩ := Option.ite_none_right_eq_some.mp hm
    cases hm
    obtain ⟨hpos, hcount, hword, hlt⟩ := shift_count h hb hs
    rw [BinaryOp.onWords?, hword, if_pos (hlt.trans h), hcount]
    refine iff_of_true (ofInt_result h ?_ (isSigned_div_span ha _)) trivial
    rw [BitVec.sshiftRight, Int.shiftRight_eq_div_pow, hx]
    rfl
  | and =>
    cases hm
    have hand := ofInt_bitwise_wide h ha hb (fun _ x y => x &&& y) (fun _ _ => BitVec.ofNat_and)
      fun _ _ => BitVec.signExtend_and
    exact iff_of_true (congrArg some hand.symm) trivial
  | or =>
    cases hm
    have hor := ofInt_bitwise_wide h ha hb (fun _ x y => x ||| y) (fun _ _ => BitVec.ofNat_or)
      fun _ _ => BitVec.signExtend_or
    exact iff_of_true (congrArg some hor.symm) trivial
  | xor =>
    cases hm
    have hxor := ofInt_bitwise_wide h ha hb (fun _ x y => x ^^^ y) (fun _ _ => BitVec.ofNat_xor)
      fun _ _ => BitVec.signExtend_xor
    exact iff_of_true (congrArg some hxor.symm) trivial
  | fadd | fsub | fmul | fdiv => cases hm

theorem isSigned_binary? (hn : binary? op w a b = some n) : isSigned n = true := by
  obtain ⟨m, -, rfl⟩ := Option.map_eq_some_iff.mp hn
  exact isSigned_normalize m w

theorem compare_wide (h : 64 < w) (ha : isSigned a = true) (hb : isSigned b = true)
    (pred : Predicate) :
    compare pred w a b = pred.onWords (BitVec.ofInt w a) (BitVec.ofInt w b) := by
  have hsame : BitVec.ofInt w a = BitVec.ofInt w b ↔ a = b := by
    rw [← BitVec.toInt_inj, toInt_ofInt_wide h ha, toInt_ofInt_wide h hb]
  unfold compare
  cases pred <;>
    simp [Predicate.onWords, BitVec.slt_eq_decide, BitVec.sle_eq_decide, BitVec.ult_eq_decide,
      BitVec.ule_eq_decide, toInt_ofInt_wide h ha, toInt_ofInt_wide h hb, toNat_ofInt_wide h ha,
      toNat_ofInt_wide h hb, extended_lt h, extended_le h, hsame, bne, BEq.beq]

theorem ofInt_normalize_self (w : Nat) (hn : isSigned n = true) :
    BitVec.ofInt w (normalize n w) = BitVec.ofInt w n := by
  rcases Nat.lt_or_ge 64 w with h | h
  · rw [normalize_of_isSigned h hn]
  rcases Nat.eq_zero_or_pos w with rfl | hpos
  · exact Subsingleton.elim _ _
  · rw [normalize_eq ⟨hpos, h⟩, BitVec.ofInt_toInt]

end Word

theorem CastOp.widthChange?_wide {op : CastOp} {n : Nat} {k : Int} (h : 64 < m)
    (ha : Word.isSigned a = true) (hk : op.widthChange? a m = some k) (htrunc : op = .trunc → n ≤ m) :
    op.onWord? (BitVec.ofInt m a) n = some (BitVec.ofInt n k) := by
  have hx := Word.toInt_ofInt_wide h ha
  unfold CastOp.widthChange? at hk
  cases op with
  | trunc =>
    cases hk
    rw [CastOp.onWord?, ← BitVec.signExtend_eq_setWidth_of_le _ (htrunc rfl), BitVec.signExtend, hx]
  | sext =>
    cases hk
    rw [CastOp.onWord?, BitVec.signExtend, hx]
  | zext =>
    obtain ⟨hle, hk⟩ := Option.ite_none_right_eq_some.mp hk
    cases hk
    have hgreatest : Word.greatest = 2 ^ 63 - 1 := rfl
    rw [CastOp.onWord?, BitVec.ofInt_natCast]
    apply congrArg some
    apply BitVec.eq_of_toNat_eq
    rw [BitVec.toNat_setWidth, BitVec.toNat_ofNat, Word.toNat_ofInt_wide h ha,
      Word.extended_of_lt (by omega)]
  | _ => cases hk

theorem CastOp.isSigned_widthChange? {op : CastOp} {k : Int}
    (ha : Word.isSigned a = true) (hk : op.widthChange? a m = some k) : Word.isSigned k = true := by
  unfold CastOp.widthChange? at hk
  cases op with
  | trunc | sext =>
    cases hk
    exact ha
  | zext =>
    obtain ⟨hle, hk⟩ := Option.ite_none_right_eq_some.mp hk
    cases hk
    have hgreatest : Word.greatest = 2 ^ 63 - 1 := rfl
    rw [Word.isSigned_iff]
    omega
  | _ => cases hk

/-! ## 5. Instructions -/

variable {ω : Type}

theorem Value.outcome_ofInt_of_isSigned (hn : Word.isSigned n = true)
    (ρ : Value → Outcome ω) (w : Nat) : (ofInt w n).outcome ρ = .word w (BitVec.ofInt w n) := by
  rw [ofInt, outcome_int, Word.ofInt_normalize_self w hn]

namespace Instr

variable {i : Instr} {w : Nat} {a b n : Int}

/-- The operands are integer constants, as constants are held, and they or the result have more than
    64 bits. -/
structure OnWideConstants (i : Instr) : Prop where
  constants : ∀ v ∈ i.operands, ∃ w a, v = .int w a ∧ 1 ≤ w ∧ Word.normalize a w = a
  wide : (∃ w a, Value.int w a ∈ i.operands ∧ 64 < w) ∨ ∃ w, i.ty = .int w ∧ 64 < w

namespace OnWideConstants

theorem held (hc : i.OnWideConstants) (h : Value.int w a ∈ i.operands) :
    1 ≤ w ∧ Word.normalize a w = a := by
  obtain ⟨_, _, heq, hsize, hheld⟩ := hc.constants _ h
  cases heq
  exact ⟨hsize, hheld⟩

theorem pair (hc : i.OnWideConstants) (hoperands : i.operands = [.int w a, .int w b])
    (hty : i.ty = .int w ∨ i.ty = .int 1) :
    64 < w ∧ Word.isSigned a = true ∧ Word.isSigned b = true := by
  refine ⟨?_, Word.isSigned_of_normalize (hc.held ?_ : 1 ≤ w ∧ _).2,
    Word.isSigned_of_normalize (hc.held ?_ : 1 ≤ w ∧ _).2⟩
  · rcases hc.wide with ⟨_, _, hmem, hlt⟩ | ⟨_, hint, hlt⟩
    · rw [hoperands] at hmem
      rcases (by simpa using hmem : _ ∨ _) with ⟨rfl, -⟩ | ⟨rfl, -⟩ <;> exact hlt
    · rcases hty with hty | hty
      · cases hint.symm.trans hty
        exact hlt
      · cases hint.symm.trans hty
        exact absurd hlt (by decide)
  · rw [hoperands]
    exact List.mem_cons_self
  · rw [hoperands]
    exact List.mem_cons_of_mem _ List.mem_cons_self

end OnWideConstants

/-- The 64 lowest bits of the operands give the result of the instruction. -/
def StaysLow (i : Instr) : Prop :=
  match i.kind, i.operands with
  | .binary op, [.int w a, .int _ b] => op.StaysLow w a b
  | _, _ => True

theorem alwaysWorth_binary_wide_iff (h : 64 < w) (hkind : i.kind = .binary op)
    (hoperands : i.operands = [.int w a, .int w b]) (ha : Word.isSigned a = true)
    (hb : Word.isSigned b = true) (hn : Word.binary? op w a b = some n) :
    i.AlwaysWorth (.ofInt w n) ↔ op.StaysLow w a b := by
  have hworth : ∀ (ω : Type) (ρ : Value → Outcome ω) (edge : Nat),
      i.outcome? ρ edge = some ((Value.ofInt w n).outcome ρ) ↔
        op.onWords? (BitVec.ofInt w a) (BitVec.ofInt w b) = some (BitVec.ofInt w n) := by
    intro ω ρ edge
    rw [Value.outcome_ofInt_of_isSigned (Word.isSigned_binary? hn)]
    simp [outcome?, hkind, hoperands]
  rw [← Word.binary?_wide_iff h ha hb hn]
  constructor
  · intro halways
    have hphi : i.isPhi = true → 0 < i.operands.length := fun _ => by simp [hoperands]
    exact (hworth Unit (fun _ => .address 0) 0).mp (halways _ _ _ hphi)
  · intro hword ω ρ edge _
    exact (hworth ω ρ edge).mpr hword

theorem alwaysWorth_icmp_wide {pred : Predicate} (h : 64 < w) (hkind : i.kind = .icmp pred)
    (hoperands : i.operands = [.int w a, .int w b]) (ha : Word.isSigned a = true)
    (hb : Word.isSigned b = true) : i.AlwaysWorth (.ofBool (Word.compare pred w a b)) := by
  intro ω ρ edge _
  rw [Value.outcome_ofBool, Word.compare_wide h ha hb]
  simp [outcome?, hkind, hoperands]

theorem alwaysWorth_cast_wide {op : CastOp} (hm : 1 ≤ m) (hkind : i.kind = .cast op)
    (hoperands : i.operands = [.int m a]) (hty : i.ty.width? = some w)
    (ha : Word.normalize a m = a) (htrunc : op = .trunc → w ≤ m)
    (hn : op.widthChange? a m = some n) : i.AlwaysWorth (.ofInt w n) := by
  have hsigned := Word.isSigned_of_normalize ha
  have hword : op.onWord? (BitVec.ofInt m a) w = some (BitVec.ofInt w n) := by
    rcases Nat.lt_or_ge 64 m with hwide | hnarrow
    · exact CastOp.widthChange?_wide hwide hsigned hn htrunc
    · rw [← ha, Word.normalize_eq ⟨hm, hnarrow⟩] at hn
      exact CastOp.widthChange?_eq ⟨hm, hnarrow⟩ hn htrunc
  intro ω ρ edge _
  rw [Value.outcome_ofInt_of_isSigned (CastOp.isSigned_widthChange? hsigned hn)]
  simp [outcome?, hkind, hoperands, hty, hword]

end Instr

namespace Program

variable {p : Program} {id : InstrId} {v : Value}

/-- Folding wide constants gives what the instruction is worth just if the result stays low. -/
theorem fold?_wide_iff (ht : p.WellTyped (p.instr id)) (hc : (p.instr id).OnWideConstants)
    (h : p.fold? id = some v) : (p.instr id).AlwaysWorth v ↔ (p.instr id).StaysLow := by
  unfold fold? at h
  dsimp only at h
  split at h
  · cases h
  unfold WellTyped at ht
  unfold Instr.StaysLow
  split at h
  · rename_i op m a k b rest hkind hoperands
    rw [hkind] at ht
    obtain ⟨_, _, hpair, hta, htb⟩ := ht
    rw [hoperands] at hpair
    cases hpair
    obtain rfl : k = m := by simpa [valueTy, Value.constantTy] using htb.trans hta.symm
    obtain ⟨w, hwidth, h⟩ := Option.bind_eq_some_iff.mp h
    obtain ⟨n, hresult, h⟩ := Option.bind_eq_some_iff.mp h
    rw [← hta] at hwidth
    cases hwidth
    cases h
    obtain ⟨hlarge, ha, hb⟩ := hc.pair hoperands (.inl hta.symm)
    rw [hkind, hoperands]
    exact Instr.alwaysWorth_binary_wide_iff hlarge hkind hoperands ha hb hresult
  · rename_i pred lhs rhs rest hkind hoperands
    rw [hkind] at ht
    obtain ⟨_, _, hpair, hty, hbool⟩ := ht
    rw [hoperands] at hpair
    cases hpair
    obtain ⟨m, a, rfl, -⟩ := hc.constants lhs (by simp [hoperands])
    obtain ⟨k, b, rfl, -⟩ := hc.constants rhs (by simp [hoperands])
    obtain rfl : m = k := by simpa [valueTy, Value.constantTy] using hty
    obtain ⟨truth, hfold, rfl⟩ := Option.map_eq_some_iff.mp h
    cases hfold
    obtain ⟨hlarge, ha, hb⟩ := hc.pair hoperands (.inr hbool)
    rw [hkind]
    exact iff_of_true (Instr.alwaysWorth_icmp_wide hlarge hkind hoperands ha hb) trivial
  · rename_i op m a rest hkind hoperands
    rw [hkind] at ht
    obtain ⟨_, hsingle, hty⟩ := ht
    rw [hoperands] at hsingle
    cases hsingle
    obtain ⟨w, hwidth, h⟩ := Option.bind_eq_some_iff.mp h
    obtain ⟨n, hresult, h⟩ := Option.bind_eq_some_iff.mp h
    cases h
    obtain ⟨hsize, ha⟩ := hc.held (by rw [hoperands]; exact List.mem_cons_self)
    rw [hkind]
    refine iff_of_true (Instr.alwaysWorth_cast_wide hsize hkind hoperands hwidth ha ?_ hresult)
      trivial
    rintro rfl
    exact hty m w rfl (Ty.eq_int_of_width? hwidth)
  · rename_i m c rest hkind hoperands
    rw [hkind] at ht
    obtain ⟨_, ifTrue, ifFalse, htriple, hbit, -, -⟩ := ht
    rw [hoperands] at htriple
    cases htriple
    obtain rfl : m = 1 := by simpa [valueTy, Value.constantTy] using hbit
    have hheld := (hc.held (by rw [hoperands]; exact List.mem_cons_self)).2
    rw [Word.normalize_eq (by decide)] at hheld
    have hworth := Instr.alwaysWorth_select hkind hoperands (Value.normal_int hheld)
    have hchosen : (if c ≠ 0 then ifTrue else ifFalse) = v := by
      by_cases hset : c ≠ 0
      · obtain ⟨-, rfl⟩ : ifTrue ≠ .instr id ∧ ifTrue = v := by simpa [hset] using h
        exact if_pos hset
      · obtain ⟨-, rfl⟩ : ifFalse ≠ .instr id ∧ ifFalse = v := by simpa [hset] using h
        exact if_neg hset
    rw [hkind, ← hchosen]
    exact iff_of_true hworth trivial
  · rename_i blocks first rest hkind hoperands
    obtain ⟨⟨hsame, -⟩, h⟩ := Option.ite_none_right_eq_some.mp h
    cases h
    rw [hkind]
    exact iff_of_true (Instr.alwaysWorth_phi hkind (by simpa [hoperands] using hsame)) trivial
  · cases h

/-- A function of 128 bits: a sum that is a signed word of 64 bits, one that is none, and a right
    shift without sign of a negative number. -/
def longs : Program where
  name := "longs"
  functions := #[⟨"Main", .void, [], false, none, none, [], [⟨0⟩], false⟩]
  blocks := #[⟨some "entry", some ⟨0⟩, [⟨0⟩, ⟨1⟩, ⟨2⟩], false⟩]
  instrs := #[
    ⟨.binary .add, .int 128, [.int 128 Word.greatest, .int 128 (-1)], none, some ⟨0⟩, false⟩,
    ⟨.binary .add, .int 128, [.int 128 Word.greatest, .int 128 1], none, some ⟨0⟩, false⟩,
    ⟨.binary .lshr, .int 128, [.int 128 (-1), .int 128 1], none, some ⟨0⟩, false⟩]

theorem onWideConstants_longs (k : Fin 3) : longs.WellTyped (longs.instr ⟨k⟩) ∧
    (longs.instr ⟨k⟩).OnWideConstants := by
  have hpair : ∀ {i : Instr} {op : BinaryOp} {a b : Int}, i.kind = .binary op → i.ty = .int 128 →
      i.operands = [.int 128 a, .int 128 b] → Word.normalize a 128 = a → Word.normalize b 128 = b →
      longs.WellTyped i ∧ i.OnWideConstants := by
    intro i op a b hkind hty hoperands ha hb
    refine ⟨?_, ?_, .inr ⟨128, hty, by decide⟩⟩
    · rw [WellTyped, hkind]
      exact ⟨_, _, hoperands, hty.symm, hty.symm⟩
    · intro v hv
      rw [hoperands] at hv
      rcases (by simpa using hv : v = .int 128 a ∨ v = .int 128 b) with rfl | rfl
      · exact ⟨128, a, rfl, by decide, ha⟩
      · exact ⟨128, b, rfl, by decide, hb⟩
  match k with
  | 0 | 1 | 2 => exact hpair rfl rfl rfl (by decide) (by decide)

theorem fold?_wide_iff_longs :
    (longs.fold? ⟨0⟩ = some (.int 128 (Word.greatest - 1)) ∧
      (longs.instr ⟨0⟩).AlwaysWorth (.int 128 (Word.greatest - 1))) ∧
    longs.fold? ⟨1⟩ = some (.int 128 Word.least) ∧
      ¬ (longs.instr ⟨1⟩).AlwaysWorth (.int 128 Word.least) := by
  have hlow : longs.fold? ⟨0⟩ = some (.int 128 (Word.greatest - 1)) := by decide +kernel
  have hhigh : longs.fold? ⟨1⟩ = some (.int 128 Word.least) := by decide +kernel
  have hfirst := onWideConstants_longs 0
  have hsecond := onWideConstants_longs 1
  refine ⟨⟨hlow, (fold?_wide_iff hfirst.1 hfirst.2 hlow).mpr ?_⟩, hhigh, fun hworth => ?_⟩
  · change Word.isSigned _ = true
    decide
  · have hsum : Word.isSigned (Word.greatest + 1) = true :=
      (fold?_wide_iff hsecond.1 hsecond.2 hhigh).mp hworth
    cases hsum

/-- A sum and a shift of 128 bits, each folded to a wrong value. -/
theorem fold?_leaves_longs :
    (longs.fold? ⟨1⟩ = some (.int 128 Word.least) ∧
      ¬ (longs.instr ⟨1⟩).AlwaysWorth (.int 128 Word.least)) ∧
    longs.fold? ⟨2⟩ = some (.int 128 Word.greatest) ∧
      ¬ (longs.instr ⟨2⟩).AlwaysWorth (.int 128 Word.greatest) := by
  refine ⟨⟨by decide +kernel, fun hworth => ?_⟩, by decide +kernel, fun hworth => ?_⟩
  · have hsum := Option.some.inj (hworth Unit (fun _ => .address 0) 0 nofun)
    exact absurd (eq_of_heq (Outcome.word.inj hsum).2) (by decide)
  · have hshift := Option.some.inj (hworth Unit (fun _ => .address 0) 0 nofun)
    exact absurd (eq_of_heq (Outcome.word.inj hshift).2) (by decide)

end Program

end QirProfile
