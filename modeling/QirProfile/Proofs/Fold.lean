import Mathlib.Data.BitVec
import QirProfile.Fold
import QirProfile.Proofs.Program.Uses
import QirProfile.Proofs.Verify

/-!
# Folding gives the value that the instruction has

Integer constants are held as numbers, sign-extended from their width. `BinaryOp.onWords?`,
`Predicate.onWords` and `CastOp.onWord?` say what the operators do to words of that many bits, and
`Instr.outcome?` what an instruction is worth when its operands are worth what a valuation says.
-/

namespace QirProfile

/-! ## 1. What operators do to words -/

namespace BinaryOp

variable {w : Nat}

/-- The result of an integer operator on words. There is none of a division by zero, of a shift by
    the width or more, and of an operator on floats. -/
def onWords? (op : BinaryOp) (x y : BitVec w) : Option (BitVec w) :=
  match op with
  | .add => some (x + y)
  | .sub => some (x - y)
  | .mul => some (x * y)
  | .udiv => if y = 0 then none else some (x / y)
  | .sdiv => if y = 0 then none else some (x.sdiv y)
  | .urem => if y = 0 then none else some (x % y)
  | .srem => if y = 0 then none else some (x.srem y)
  | .shl => if y.toNat < w then some (x <<< y.toNat) else none
  | .lshr => if y.toNat < w then some (x >>> y.toNat) else none
  | .ashr => if y.toNat < w then some (x.sshiftRight y.toNat) else none
  | .and => some (x &&& y)
  | .or => some (x ||| y)
  | .xor => some (x ^^^ y)
  | .fadd | .fsub | .fmul | .fdiv => none

end BinaryOp

/-- The truth of a comparison of words. -/
def Predicate.onWords {w : Nat} (pred : Predicate) (x y : BitVec w) : Bool :=
  match pred with
  | .eq => x == y
  | .ne => x != y
  | .ugt => y.ult x
  | .uge => y.ule x
  | .ult => x.ult y
  | .ule => x.ule y
  | .sgt => y.slt x
  | .sge => y.sle x
  | .slt => x.slt y
  | .sle => x.sle y

/-- A word at another width, where the conversion changes the width of words. -/
def CastOp.onWord? {m : Nat} (op : CastOp) (x : BitVec m) (n : Nat) : Option (BitVec n) :=
  match op with
  | .trunc | .zext => some (x.setWidth n)
  | .sext => some (x.signExtend n)
  | _ => none

/-! ## 2. What instructions are worth -/

variable {ω : Type}

/-- What a value is worth in a run: a word, an address, or something that folding does not look
    into. -/
inductive Outcome (ω : Type) where
  | word (width : Nat) (bits : BitVec width)
  | address (bits : BitVec 64)
  | other (what : ω)

namespace Value

/-- What a value is worth: numbers and null are worth what they say, anything else what the
    valuation says. -/
def outcome (ρ : Value → Outcome ω) : Value → Outcome ω
  | int w n => .word w (BitVec.ofInt w n)
  | null _ => .address 0
  | v => ρ v

@[simp] theorem outcome_int (ρ : Value → Outcome ω) (w : Nat) (n : Int) :
    (int w n).outcome ρ = .word w (BitVec.ofInt w n) := rfl

@[simp] theorem outcome_null (ρ : Value → Outcome ω) (ty : Ty) :
    (null ty).outcome ρ = .address 0 := rfl

/-- Every integer constant in the value is sign-extended from its width. -/
def Normal (v : Value) : Prop :=
  ∀ w n, mentions (int w n) v = true → (BitVec.ofInt w n).toInt = n

end Value

/-- What an instruction is worth. For a phi, `edge` is the number of the edge by which it is
    reached. -/
def Instr.outcome? (ρ : Value → Outcome ω) (edge : Nat) (i : Instr) : Option (Outcome ω) :=
  match i.kind, i.operands.map (Value.outcome ρ) with
  | .binary op, [.word w x, .word w' y] =>
    if h : w' = w then (op.onWords? x (y.cast h)).map (.word w) else none
  | .icmp pred, [.word w x, .word w' y] =>
    if h : w' = w then some (.word 1 (.ofBool (pred.onWords x (y.cast h)))) else none
  | .icmp pred, [.address x, .address y] => some (.word 1 (.ofBool (pred.onWords x y)))
  | .cast op, [.word _ x] => do
    let n ← i.ty.width?
    let y ← op.onWord? x n
    return .word n y
  | .select, [.word 1 c, ifTrue, ifFalse] => some (if c = 1 then ifTrue else ifFalse)
  | .phi _, incoming => incoming[edge]?
  | _, _ => none

/-- The instruction is worth what the value is, in every run and by whatever edge it is reached. -/
def Instr.AlwaysWorth (i : Instr) (v : Value) : Prop :=
  ∀ (ω : Type) (ρ : Value → Outcome ω) (edge : Nat),
    (i.isPhi = true → edge < i.operands.length) → i.outcome? ρ edge = some (v.outcome ρ)

namespace Program

/-- What is asked of the types of an instruction that can fold. -/
def WellTyped (p : Program) (i : Instr) : Prop :=
  match i.kind with
  | .binary _ => ∃ a b, i.operands = [a, b] ∧ p.valueTy a = i.ty ∧ p.valueTy b = i.ty
  | .icmp _ => ∃ a b, i.operands = [a, b] ∧ p.valueTy a = p.valueTy b ∧ i.ty = .int 1
  | .cast op => ∃ a, i.operands = [a] ∧ ∀ m n, p.valueTy a = .int m → i.ty = .int n →
      match op with
      | .trunc => n ≤ m
      | .zext | .sext => m ≤ n
      | _ => True
  | .select => ∃ c a b, i.operands = [c, a, b] ∧ p.valueTy c = .int 1 ∧ p.valueTy a = i.ty ∧
      p.valueTy b = i.ty
  | .phi _ => ∀ v ∈ i.operands, p.valueTy v = i.ty
  | _ => True

/-- The integer types of an instruction have at least one bit and at most 64. -/
def Sized (p : Program) (i : Instr) : Prop :=
  ∀ w, (i.ty = .int w ∨ ∃ v ∈ i.operands, p.valueTy v = .int w) → 1 ≤ w ∧ w ≤ 64

end Program

/-! ## 3. Numbers and words -/

namespace Word

variable {w : Nat}

theorem bits_of_le (h : 1 ≤ w ∧ w ≤ 64) : bits w = w := by
  unfold bits
  split <;> omega

theorem normalize_eq (h : 1 ≤ w ∧ w ≤ 64) (n : Int) :
    normalize n w = (BitVec.ofInt w n).toInt := by
  rw [normalize, bits_of_le h, BitVec.toInt_ofInt]
  rfl

theorem unsigned_eq (h : 1 ≤ w ∧ w ≤ 64) (n : Int) :
    unsigned n w = (BitVec.ofInt w n).toNat := by
  rw [unsigned, bits_of_le h, BitVec.toNat_ofInt]
  rfl

theorem ofNat_unsigned (h : w ≤ 64) (n : Int) :
    BitVec.ofNat w (unsigned n 64) = BitVec.ofInt w n := by
  have hdvd : ((2 ^ w : Nat) : Int) ∣ ((2 ^ 64 : Nat) : Int) := by
    exact_mod_cast Nat.pow_dvd_pow 2 h
  have hword : ((unsigned n 64 : Nat) : Int) = n % (2 ^ 64 : Nat) :=
    Int.toNat_of_nonneg (Int.emod_nonneg _ (by decide))
  apply BitVec.eq_of_toInt_eq
  rw [← BitVec.ofInt_natCast, hword, BitVec.toInt_ofInt, BitVec.toInt_ofInt, ← Int.emod_bmod,
    Int.emod_emod_of_dvd n hdvd, Int.emod_bmod]

theorem ofInt_bitwise (h : w ≤ 64) {f : Nat → Nat → Nat} {g : BitVec w → BitVec w → BitVec w}
    (hfg : ∀ a b, BitVec.ofNat w (f a b) = g (.ofNat w a) (.ofNat w b)) (x y : BitVec w) :
    BitVec.ofInt w (bitwise f x.toInt y.toInt) = g x y := by
  rw [bitwise, BitVec.ofInt_natCast, hfg, ofNat_unsigned h, ofNat_unsigned h, BitVec.ofInt_toInt,
    BitVec.ofInt_toInt]

theorem ofInt_mul_span (x : BitVec w) (n : Nat) : BitVec.ofInt w (x.toInt * span n) = x <<< n := by
  have hone : BitVec.ofNat w (span n) = BitVec.twoPow w n := by
    apply BitVec.eq_of_toNat_eq
    rw [BitVec.toNat_ofNat, BitVec.toNat_twoPow]
    rfl
  rw [BitVec.ofInt_mul, BitVec.ofInt_toInt, BitVec.ofInt_natCast, hone,
    BitVec.shiftLeft_eq_mul_twoPow]

theorem ofInt_toNat (x : BitVec w) : BitVec.ofInt w x.toNat = x := by
  rw [BitVec.ofInt_natCast, BitVec.ofNat_toNat, BitVec.setWidth_eq]

theorem binary?_eq (h : 1 ≤ w ∧ w ≤ 64) {op : BinaryOp} {x y : BitVec w} {n : Int}
    (hn : binary? op w x.toInt y.toInt = some n) :
    ∃ r, op.onWords? x y = some r ∧ n = r.toInt := by
  have hzero : y.toNat = 0 ↔ y = 0 := by
    rw [← BitVec.toNat_inj, BitVec.ofNat_eq_ofNat, BitVec.toNat_ofNat, Nat.zero_mod]
  have hzero' : y.toInt = 0 ↔ y = 0 := by
    rw [← BitVec.toInt_inj, BitVec.ofNat_eq_ofNat, BitVec.toInt_zero]
  have hshifts : y.toNat < min w 64 ↔ y.toNat < w := by rw [Nat.min_eq_left h.2]
  -- each operator gives a number whose word is the result
  have hword : ∀ {m : Int} {r : BitVec w}, BitVec.ofInt w m = r → normalize m w = r.toInt := by
    rintro m r rfl
    exact normalize_eq h m
  unfold binary? at hn
  simp only [unsigned_eq h, BitVec.ofInt_toInt] at hn
  obtain ⟨m, hm, rfl⟩ := Option.map_eq_some_iff.mp hn
  cases op with
  | add =>
    cases hm
    exact ⟨_, rfl, hword (by rw [BitVec.ofInt_add, BitVec.ofInt_toInt, BitVec.ofInt_toInt])⟩
  | sub =>
    cases hm
    refine ⟨_, rfl, hword (BitVec.eq_of_toInt_eq ?_)⟩
    rw [BitVec.toInt_ofInt, BitVec.toInt_sub]
  | mul =>
    cases hm
    exact ⟨_, rfl, hword (by rw [BitVec.ofInt_mul, BitVec.ofInt_toInt, BitVec.ofInt_toInt])⟩
  | udiv =>
    obtain ⟨hy, hm⟩ := Option.ite_none_left_eq_some.mp hm
    cases hm
    exact ⟨_, if_neg (hy ∘ hzero.mpr), hword (by rw [← BitVec.toNat_udiv, ofInt_toNat])⟩
  | sdiv =>
    obtain ⟨hy, hm⟩ := Option.ite_none_right_eq_some.mp hm
    cases hm
    refine ⟨_, if_neg (hy.1 ∘ hzero'.mpr), hword (BitVec.eq_of_toInt_eq ?_)⟩
    rw [BitVec.toInt_ofInt, BitVec.toInt_sdiv]
  | urem =>
    obtain ⟨hy, hm⟩ := Option.ite_none_left_eq_some.mp hm
    cases hm
    exact ⟨_, if_neg (hy ∘ hzero.mpr), hword (by rw [← BitVec.toNat_umod, ofInt_toNat])⟩
  | srem =>
    obtain ⟨hy, hm⟩ := Option.ite_none_right_eq_some.mp hm
    cases hm
    refine ⟨_, if_neg (hy.1 ∘ hzero'.mpr), hword ?_⟩
    rw [← BitVec.toInt_srem, BitVec.ofInt_toInt]
  | shl =>
    obtain ⟨hy, hm⟩ := Option.ite_none_right_eq_some.mp hm
    cases hm
    exact ⟨_, if_pos (hshifts.mp hy), hword (ofInt_mul_span x _)⟩
  | lshr =>
    obtain ⟨hy, hm⟩ := Option.ite_none_right_eq_some.mp hm
    cases hm
    refine ⟨_, if_pos (hshifts.mp hy), hword ?_⟩
    rw [← ofInt_toNat (x >>> y.toNat), BitVec.toNat_ushiftRight, Nat.shiftRight_eq_div_pow]
    rfl
  | ashr =>
    obtain ⟨hy, hm⟩ := Option.ite_none_right_eq_some.mp hm
    cases hm
    refine ⟨_, if_pos (hshifts.mp hy), hword ?_⟩
    rw [BitVec.sshiftRight, Int.shiftRight_eq_div_pow]
    rfl
  | and =>
    cases hm
    exact ⟨_, rfl, hword (ofInt_bitwise h.2 (fun _ _ => BitVec.ofNat_and) x y)⟩
  | or =>
    cases hm
    exact ⟨_, rfl, hword (ofInt_bitwise h.2 (fun _ _ => BitVec.ofNat_or) x y)⟩
  | xor =>
    cases hm
    exact ⟨_, rfl, hword (ofInt_bitwise h.2 (fun _ _ => BitVec.ofNat_xor) x y)⟩
  | fadd | fsub | fmul | fdiv => cases hm

theorem compare_eq (h : 1 ≤ w ∧ w ≤ 64) (pred : Predicate) (x y : BitVec w) :
    compare pred w x.toInt y.toInt = pred.onWords x y := by
  unfold compare
  simp only [unsigned_eq h, BitVec.ofInt_toInt]
  cases pred <;>
    simp [Predicate.onWords, BitVec.slt_eq_decide, BitVec.sle_eq_decide, BitVec.ult_eq_decide,
      BitVec.ule_eq_decide, BitVec.toInt_inj, bne, BEq.beq]

end Word

theorem CastOp.widthChange?_eq {op : CastOp} {m n : Nat} (h : 1 ≤ m ∧ m ≤ 64) {x : BitVec m}
    {k : Int} (hk : op.widthChange? x.toInt m = some k) (htrunc : op = .trunc → n ≤ m) :
    op.onWord? x n = some (BitVec.ofInt n k) := by
  unfold CastOp.widthChange? at hk
  cases op with
  | trunc =>
    cases hk
    exact congrArg some (BitVec.signExtend_eq_setWidth_of_le x (htrunc rfl)).symm
  | sext =>
    cases hk
    rfl
  | zext =>
    simp only [Word.unsigned_eq h, BitVec.ofInt_toInt] at hk
    obtain ⟨-, hk⟩ := Option.ite_none_right_eq_some.mp hk
    cases hk
    rw [CastOp.onWord?, BitVec.ofInt_natCast, BitVec.ofNat_toNat]
  | _ => cases hk

/-! ## 4. Folding -/

theorem Ty.eq_int_of_width? {ty : Ty} {w : Nat} (h : ty.width? = some w) : ty = .int w := by
  cases ty <;> cases h
  rfl

namespace Value

variable {w : Nat}

theorem Normal.toInt {n : Int} (h : (int w n).Normal) : (BitVec.ofInt w n).toInt = n :=
  h w n (mentions_self _)

theorem normal_int {n : Int} (h : (BitVec.ofInt w n).toInt = n) : (int w n).Normal := by
  intro w' n' hmem
  obtain ⟨rfl, rfl⟩ : w = w' ∧ n = n' := by simpa [mentions] using hmem
  exact h

theorem normal_ofInt (h : 1 ≤ w ∧ w ≤ 64) (n : Int) : (ofInt w n).Normal :=
  normal_int (by rw [Word.normalize_eq h, BitVec.ofInt_toInt])

theorem outcome_ofInt (h : 1 ≤ w ∧ w ≤ 64) (ρ : Value → Outcome ω) (n : Int) :
    (ofInt w n).outcome ρ = .word w (BitVec.ofInt w n) := by
  rw [ofInt, outcome_int, Word.normalize_eq h, BitVec.ofInt_toInt]

theorem outcome_ofBool (ρ : Value → Outcome ω) (b : Bool) :
    (ofBool b).outcome ρ = .word 1 (BitVec.ofBool b) := by
  rw [ofBool, outcome_ofInt (by decide)]
  cases b <;> rfl

end Value

namespace Instr

variable {i : Instr} {w : Nat} {a b n : Int}

theorem alwaysWorth_binary {op : BinaryOp} (hw : 1 ≤ w ∧ w ≤ 64) (hkind : i.kind = .binary op)
    (hoperands : i.operands = [.int w a, .int w b]) (ha : (Value.int w a).Normal)
    (hb : (Value.int w b).Normal) (h : Word.binary? op w a b = some n) :
    i.AlwaysWorth (.ofInt w n) := by
  rw [← ha.toInt, ← hb.toInt] at h
  obtain ⟨r, hr, rfl⟩ := Word.binary?_eq hw h
  intro ω ρ edge _
  rw [Value.outcome_ofInt hw, BitVec.ofInt_toInt]
  simp [outcome?, hkind, hoperands, hr]

theorem alwaysWorth_icmp {pred : Predicate} (hw : 1 ≤ w ∧ w ≤ 64) (hkind : i.kind = .icmp pred)
    (hoperands : i.operands = [.int w a, .int w b]) (ha : (Value.int w a).Normal)
    (hb : (Value.int w b).Normal) : i.AlwaysWorth (.ofBool (Word.compare pred w a b)) := by
  intro ω ρ edge _
  rw [Value.outcome_ofBool, ← ha.toInt, ← hb.toInt, Word.compare_eq hw]
  simp [outcome?, hkind, hoperands]

theorem alwaysWorth_nulls {pred : Predicate} {s t : Ty} {truth : Bool} (hkind : i.kind = .icmp pred)
    (hoperands : i.operands = [.null s, .null t]) (h : pred.onNulls? = some truth) :
    i.AlwaysWorth (.ofBool truth) := by
  have htruth : pred.onWords (0 : BitVec 64) 0 = truth := by
    cases pred <;> cases h <;> rfl
  intro ω ρ edge _
  rw [Value.outcome_ofBool, ← htruth]
  simp [outcome?, hkind, hoperands]

theorem alwaysWorth_cast {op : CastOp} {m : Nat} (hm : 1 ≤ m ∧ m ≤ 64) (hw : 1 ≤ w ∧ w ≤ 64)
    (hkind : i.kind = .cast op) (hoperands : i.operands = [.int m a])
    (hty : i.ty.width? = some w) (ha : (Value.int m a).Normal) (htrunc : op = .trunc → w ≤ m)
    (h : op.widthChange? a m = some n) : i.AlwaysWorth (.ofInt w n) := by
  rw [← ha.toInt] at h
  have hword := CastOp.widthChange?_eq hm h htrunc
  intro ω ρ edge _
  rw [Value.outcome_ofInt hw]
  simp [outcome?, hkind, hoperands, hty, hword]

theorem alwaysWorth_select {c : Int} {ifTrue ifFalse : Value} (hkind : i.kind = .select)
    (hoperands : i.operands = [.int 1 c, ifTrue, ifFalse]) (hc : (Value.int 1 c).Normal) :
    i.AlwaysWorth (if c ≠ 0 then ifTrue else ifFalse) := by
  have hset : BitVec.ofInt 1 c = 1#1 ↔ c ≠ 0 := by
    have hbit : ∀ x : BitVec 1, x = 1#1 ↔ x.toInt ≠ 0 := by decide
    rw [hbit, hc.toInt]
  intro ω ρ edge _
  by_cases h : c ≠ 0 <;> simp [outcome?, hkind, hoperands, hset, h]

theorem alwaysWorth_phi {v : Value} {blocks : List BlockId} (hkind : i.kind = .phi blocks)
    (hall : ∀ u ∈ i.operands, u = v) : i.AlwaysWorth v := by
  intro ω ρ edge hedge
  have hlt := hedge (isPhi_iff.mpr ⟨blocks, hkind⟩)
  rw [outcome?, hkind]
  simp [hlt, hall _ (List.getElem_mem hlt)]

end Instr

namespace Program

variable {p : Program} {id : InstrId} {v : Value}

/-- What an instruction on integers of 1 to 64 bits folds to is what it is always worth, in normal
    form. -/
theorem fold?_sound (ht : p.WellTyped (p.instr id)) (hw : p.Sized (p.instr id))
    (hn : ∀ u ∈ (p.instr id).operands, u.Normal) (h : p.fold? id = some v) :
    v.Normal ∧ (p.instr id).AlwaysWorth v := by
  unfold fold? at h
  dsimp only at h
  split at h
  · cases h
  unfold WellTyped at ht
  split at h
  · rename_i op m a k b rest hkind hoperands
    rw [hkind] at ht
    obtain ⟨_, _, hpair, ha, hb⟩ := ht
    rw [hoperands] at hpair hn
    cases hpair
    obtain rfl : k = m := by simpa [valueTy, Value.constantTy] using hb.trans ha.symm
    obtain ⟨w, hwidth, h⟩ := Option.bind_eq_some_iff.mp h
    obtain ⟨n, hresult, h⟩ := Option.bind_eq_some_iff.mp h
    rw [← ha] at hwidth
    cases hwidth
    cases h
    have hsize := hw k (.inl ha.symm)
    exact ⟨Value.normal_ofInt hsize n, Instr.alwaysWorth_binary hsize hkind hoperands
      (hn _ (by simp)) (hn _ (by simp)) hresult⟩
  · rename_i pred lhs rhs rest hkind hoperands
    rw [hkind] at ht
    obtain ⟨_, _, hpair, hty, -⟩ := ht
    rw [hoperands] at hpair hn
    cases hpair
    obtain ⟨truth, hfold, rfl⟩ := Option.map_eq_some_iff.mp h
    refine ⟨Value.normal_ofInt (by decide) _, ?_⟩
    unfold foldCompare? at hfold
    split at hfold
    · exact Instr.alwaysWorth_nulls hkind hoperands hfold
    · rename_i m a k b
      obtain rfl : m = k := by simpa [valueTy, Value.constantTy] using hty
      cases hfold
      have hsize := hw m (.inr ⟨.int m a, by simp [hoperands], rfl⟩)
      exact Instr.alwaysWorth_icmp hsize hkind hoperands (hn _ (by simp)) (hn _ (by simp))
    · cases hfold
  · rename_i op m a rest hkind hoperands
    rw [hkind] at ht
    obtain ⟨_, hsingle, hty⟩ := ht
    rw [hoperands] at hsingle hn
    cases hsingle
    obtain ⟨w, hwidth, h⟩ := Option.bind_eq_some_iff.mp h
    obtain ⟨n, hresult, h⟩ := Option.bind_eq_some_iff.mp h
    cases h
    have hint : (p.instr id).ty = .int w := Ty.eq_int_of_width? hwidth
    have hsize := hw w (.inl hint)
    have hfrom := hw m (.inr ⟨.int m a, by simp [hoperands], rfl⟩)
    refine ⟨Value.normal_ofInt hsize n, Instr.alwaysWorth_cast hfrom hsize hkind hoperands hwidth
      (hn _ (by simp)) ?_ hresult⟩
    rintro rfl
    exact hty m w rfl hint
  · rename_i m c rest hkind hoperands
    rw [hkind] at ht
    obtain ⟨_, ifTrue, ifFalse, htriple, hc, -, -⟩ := ht
    rw [hoperands] at htriple hn
    cases htriple
    obtain rfl : m = 1 := by simpa [valueTy, Value.constantTy] using hc
    have hworth := Instr.alwaysWorth_select hkind hoperands (hn _ (by simp))
    by_cases hset : c ≠ 0
    · obtain ⟨-, rfl⟩ : ifTrue ≠ .instr id ∧ ifTrue = v := by simpa [hset] using h
      rw [if_pos hset] at hworth
      exact ⟨hn _ (by simp), hworth⟩
    · obtain ⟨-, rfl⟩ : ifFalse ≠ .instr id ∧ ifFalse = v := by simpa [hset] using h
      rw [if_neg hset] at hworth
      exact ⟨hn _ (by simp), hworth⟩
  · rename_i blocks first rest hkind hoperands
    obtain ⟨⟨hsame, -⟩, h⟩ := Option.ite_none_right_eq_some.mp h
    cases h
    refine ⟨hn _ (by simp [hoperands]), Instr.alwaysWorth_phi hkind ?_⟩
    simpa [hoperands] using hsame
  · cases h

/-- A function of eight bits: its argument by two edges, and the least number divided by -1, which
    leaves the eight bits. -/
def octets : Program where
  name := "octets"
  functions := #[⟨"Main", .void, [⟨some "n", .int 8⟩], false, none, none, [], [⟨0⟩], false⟩]
  blocks := #[⟨some "entry", some ⟨0⟩, [⟨0⟩, ⟨1⟩], false⟩]
  instrs := #[
    ⟨.phi [⟨0⟩, ⟨0⟩], .int 8, [.arg ⟨0⟩ 0, .arg ⟨0⟩ 0], none, some ⟨0⟩, false⟩,
    ⟨.binary .sdiv, .int 8, [.int 8 (-128), .int 8 (-1)], none, some ⟨0⟩, false⟩]

theorem sized_octets : octets.Sized (octets.instr ⟨0⟩) ∧ octets.Sized (octets.instr ⟨1⟩) := by
  constructor <;> intro w h <;>
    obtain rfl : w = 8 := by
      simpa [octets, instr, valueTy, func, Value.constantTy, eq_comm] using h
  all_goals decide

theorem fold?_sound_octets :
    (octets.fold? ⟨0⟩ = some (.arg ⟨0⟩ 0) ∧ (octets.instr ⟨0⟩).AlwaysWorth (.arg ⟨0⟩ 0)) ∧
    octets.fold? ⟨1⟩ = some (.int 8 (-128)) ∧ (octets.instr ⟨1⟩).AlwaysWorth (.int 8 (-128)) := by
  have hphi : octets.fold? ⟨0⟩ = some (.arg ⟨0⟩ 0) := by decide +kernel
  have hdiv : octets.fold? ⟨1⟩ = some (.int 8 (-128)) := by decide +kernel
  have htyped : octets.WellTyped (octets.instr ⟨1⟩) := ⟨.int 8 (-128), .int 8 (-1), rfl, rfl, rfl⟩
  refine ⟨⟨hphi, (fold?_sound ?_ sized_octets.1 ?_ hphi).2⟩, hdiv,
    (fold?_sound htyped sized_octets.2 ?_ hdiv).2⟩
  · intro v hv
    obtain rfl : v = .arg ⟨0⟩ 0 := by simpa [octets, instr] using hv
    rfl
  · intro v hv w n hmem
    obtain rfl : v = .arg ⟨0⟩ 0 := by simpa [octets, instr] using hv
    cases hmem
  · intro v hv
    rcases (by simpa [octets, instr] using hv : v = .int 8 (-128) ∨ v = .int 8 (-1)) with rfl | rfl
    · exact Value.normal_int (by decide)
    · exact Value.normal_int (by decide)

end Program

end QirProfile
