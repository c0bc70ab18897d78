import QirProfile.Proofs.Transform.HandedOut

/-!
# The constants that addresses are cast from

An address is cast from a constant of a width that the settings give, and the address of an array element
from one of the type of the index. A constant of few bits cannot hold every address. Constants are also
read again, as signed numbers, where an element of the array is accessed. So this is about which addresses
come through.
-/

namespace QirProfile

/-! ## 1. Constants that hold addresses -/


namespace Value

variable {bits width n : Nat}

/-- The number that a constant writes in the bits of its type. -/
def unsigned? : Value → Option Nat
  | .int bits value => some (value % span bits).toNat
  | _ => none

/-- The addresses that can be written in so many bits. Constants hold signed words, so of more bits than a
    word has only those of a positive one are of use. -/
def Fits (bits address : Nat) : Prop := address < if bits ≤ 64 then span bits else span 63

theorem unsigned_ofInt_iff (h : n < span 64) :
    (ofInt bits n).unsigned? = some n ↔ Fits bits n := by
  have hreading : (ofInt bits n).unsigned? =
      some (((n : Int).bmod (span (Word.bits bits))) % span bits).toNat := rfl
  rw [hreading, Option.some_inj, Fits]
  by_cases hzero : bits = 0
  · subst hzero
    rw [if_pos (Nat.zero_le _), show span 0 = 1 from rfl, Int.natCast_one, Int.emod_one]
    omega
  by_cases hle : bits ≤ 64
  · have hbits : Word.bits bits = bits := by
      unfold Word.bits
      split <;> omega
    rw [if_pos hle, hbits, Int.bmod_emod, ← Int.natCast_mod, Int.toNat_natCast]
    exact Nat.mod_eq_iff_lt (Nat.pow_pos (by decide)).ne'
  · have hbits : Word.bits bits = 64 := if_pos (.inr (by omega))
    have hword : span 64 = 2 * span 63 := rfl
    have hwide : span 65 ≤ span bits := Nat.pow_le_pow_right (by decide) (by omega)
    have htwice : span 65 = 2 * span 64 := rfl
    rw [if_neg hle, hbits]
    by_cases hlow : n < span 63
    · have hsame : (n : Int).bmod (span 64) = n := Int.bmod_eq_of_le_mul_two (by omega) (by omega)
      rw [hsame, Int.emod_eq_of_lt (by omega) (by omega)]
      simp [hlow]
    · -- a word that is read as a negative number is written with all bits in front set
      have hsame : (n : Int).bmod (span 64) = n - span 64 := by
        rw [← Int.sub_bmod_right]
        exact Int.bmod_eq_of_le_mul_two (by omega) (by omega)
      rw [hsame, ← Int.add_emod_right, Int.emod_eq_of_lt (by omega) (by omega)]
      omega

theorem Fits.lt (h : Fits bits n) : n < span 64 := by
  refine Nat.lt_of_lt_of_le h ?_
  split
  · rename_i hle
    exact Nat.pow_le_pow_right (by decide) hle
  · exact Nat.pow_le_pow_right (by decide) (by decide)

theorem Fits.unsigned_ofInt (h : Fits bits n) : (ofInt bits n).unsigned? = some n :=
  (unsigned_ofInt_iff h.lt).mpr h

theorem ofInt_normalize_add (h : Word.bits bits ≤ Word.bits width ∨ n < span (Word.bits width - 1))
    (i : Int) : ofInt bits (Word.normalize n width + i) = ofInt bits (n + i) := by
  change int bits _ = int bits _
  refine congrArg (int bits) ?_
  rcases h with hle | hlow
  · have hdvd : span (Word.bits bits) ∣ span (Word.bits width) := Nat.pow_dvd_pow 2 hle
    unfold Word.normalize
    rw [← Int.bmod_add_bmod, Int.bmod_bmod_of_dvd hdvd, Int.bmod_add_bmod]
  · have hpos : 0 < Word.bits width := by
      unfold Word.bits
      split <;> omega
    have htwice : span (Word.bits width) = 2 * span (Word.bits width - 1) := by
      obtain ⟨k, hk⟩ := Nat.exists_eq_succ_of_ne_zero hpos.ne'
      rw [hk, Nat.succ_sub_one]
      exact Nat.pow_succ'
    have hsame : Word.normalize n width = n :=
      Int.bmod_eq_of_le_mul_two (by omega) (by omega)
    rw [hsame]

end Value

namespace Program

variable {p : Program} {a : InstrId} {v : Value}

/-- The address that a pointer carries: the number that its constant writes. -/
def address? (p : Program) (a : InstrId) : Option Nat :=
  match (p.instr a).kind, (p.instr a).operands with
  | .cast .inttoptr, [v] => v.unsigned?
  | _, _ => none

theorem address?_eq_some {n : Nat} (h : p.address? a = some n) :
    ∃ v, p.IsPointer a v ∧ v.unsigned? = some n := by
  unfold address? at h
  split at h
  · rename_i v hkind hoperands
    exact ⟨v, ⟨hkind, hoperands⟩, h⟩
  · cases h

theorem IsPointer.address? (h : p.IsPointer a v) : p.address? a = v.unsigned? := by
  unfold Program.address?
  rw [h.kind, h.operands]

end Program

/-! ## 2. Pointers that rules make -/

namespace Transform

open Replacing
open Value (Fits)

variable {settings : RuleSettings} {s : TransformSettings} {c c' : Compilation}
  {stats stats' : TransformStatistics}

theorem Granted.carried {of : Addresses → Allocator} {id a : InstrId} {count start : Nat}
    (hof : ∀ {id s s' heir answer}, Work settings id s s' heir answer → (of s.extra).Moves (of s'.extra))
    (hp : c.program.Sound) (hbooks : (of c.addresses).Sound)
    (h : applyRules settings.rules s stats c = .ok stats' c')
    (hgranted : Granted settings (startOf c) (tried settings s c.program c.addresses) of id a count start) :
    c'.program.IsPointer a (.ofInt settings.integerWidth start) ∧
      (c'.program.address? a = some start ↔ Fits settings.integerWidth start) := by
  obtain ⟨run, c₁, _, _, hwent, -⟩ := applyRules_went hp h
  obtain ⟨hpointer, -⟩ := applyRules_pointer hp h hgranted.scheduled hgranted.pointer
  obtain ⟨hbelow, hlast⟩ := hgranted.below hof hp hwent.attends hbooks
  rw [hpointer.address?]
  exact ⟨hpointer, Value.unsigned_ofInt_iff (by omega)⟩

/-- Every new pointer is cast from the constant that its address makes at the given width, and holds
    the address just if the width can. -/
theorem applyRules_addresses (settings : RuleSettings) (s : TransformSettings) (hp : c.program.Sound)
    (hqubits : c.addresses.qubits.Sound) (hresults : c.addresses.results.Sound)
    (h : applyRules settings.rules s stats c = .ok stats' c') :
    let order := tried settings s c.program c.addresses
    let width := settings.integerWidth
    (∀ id a, ⟨id, some a⟩ ∈ (lastOf settings s c).scheduled →
      (∃ xs ys, order = xs ++ id :: ys ∧
        let p := (visitAll settings.rules (startOf c) xs).program
        (∃ count, p.AllocatesQubits id count) ∨
          p.Calls id "__quantum__qis__m__body" ∨
            ∃ array bits index, p.ReadsElement id array bits index) ∧
      (∀ count, c.program.AllocatesQubits id count → ∃ start : Nat,
        Granted settings (startOf c) order (·.qubits) id a count start ∧
          c'.program.IsPointer a (.ofInt width start) ∧
            (c'.program.address? a = some start ↔ Fits width start)) ∧
      (c.program.Calls id "__quantum__qis__m__body" → ∃ start : Nat,
        Granted settings (startOf c) order (·.results) id a 1 start ∧
          c'.program.IsPointer a (.ofInt width start) ∧
            (c'.program.address? a = some start ↔ Fits width start)) ∧
      ∀ array bits index count, c.program.ReadsElement id (.instr array) bits index →
        c.program.AllocatesQubits array count → ∃ (x : InstrId) (start : Nat),
          Granted settings (startOf c) order (·.qubits) array x count start ∧
            c'.program.IsPointer a (.ofInt bits (Word.normalize start width + index)) ∧
              ∀ n : Nat, index = n → Fits bits (start + n) →
                Word.bits bits ≤ Word.bits width ∨ start < span (Word.bits width - 1) →
                  c'.program.address? a = some (start + n)) ∧
    ∀ a x m n, c'.program.address? a = some m → c'.program.address? x = some n → m ≠ n →
      (c'.program.instr a).operands ≠ (c'.program.instr x).operands := by
  obtain ⟨run, c₁, _, _, hwent, -⟩ := applyRules_went hp h
  have hattends := hwent.attends
  intro order width
  refine ⟨fun id a ha => ?_, fun a x m n ha hx hne hsame => hne ?_⟩
  · obtain ⟨xs, ys, answer, along, horder, hwork⟩ := hattends.pointed hp rfl ha
    have htrial : Attends settings (startOf c) (xs ++ id :: ys) := horder ▸ hattends
    refine ⟨⟨xs, ys, horder, hwork.work.of_heir⟩, fun count hcall => ?_, fun hmeasures => ?_,
      fun array bits index count hreads hcall => ?_⟩
    · obtain ⟨_, start, ⟨rfl⟩, -, hgranted⟩ := htrial.granted_qubits hp hwork hcall
      rw [← horder] at hgranted
      exact ⟨start, hgranted, hgranted.carried Work.moves_qubits hp hqubits h⟩
    · obtain ⟨_, start, ⟨rfl⟩, hgranted⟩ := htrial.granted_result hp hwork hmeasures
      rw [← horder] at hgranted
      exact ⟨start, hgranted, hgranted.carried Work.moves_results hp hresults h⟩
    · obtain ⟨_, x, start, ⟨rfl⟩, -, hguest, hgranted⟩ := htrial.element hp hwork hreads hcall
      rw [← horder] at hguest hgranted
      obtain ⟨hpointer, -⟩ := applyRules_pointer hp h ha hguest
      refine ⟨x, start, hgranted, hpointer, fun n hn hfits hreading => ?_⟩
      rw [hpointer.address?, Value.ofInt_normalize_add hreading, hn, ← Int.natCast_add]
      exact hfits.unsigned_ofInt
  · obtain ⟨v, hv, hm⟩ := Program.address?_eq_some ha
    obtain ⟨w, hw, hn⟩ := Program.address?_eq_some hx
    rw [hv.operands, hw.operands] at hsame
    obtain rfl := (List.cons.inj hsame).1
    exact Option.some.inj (hm.symm.trans hn)

/-- A qubit and the second one of an array are entangled. -/
def narrow : Program where
  name := "narrow"
  namedTypes := [("Array", none), ("Qubit", none)]
  functions := #[
    ⟨"__quantum__rt__qubit_allocate", .ptr (.named "Qubit"), [], false, none, none, [], [], false⟩,
    ⟨"__quantum__rt__qubit_allocate_array", .ptr (.named "Array"), [⟨none, .int 64⟩], false, none, none,
      [], [], false⟩,
    ⟨"__quantum__rt__array_get_element_ptr_1d", .ptr (.int 8),
      [⟨none, .ptr (.named "Array")⟩, ⟨none, .int 64⟩], false, none, none, [], [], false⟩,
    ⟨"__quantum__qis__cnot__body", .void,
      [⟨none, .ptr (.named "Qubit")⟩, ⟨none, .ptr (.named "Qubit")⟩], false, none, none, [], [], false⟩,
    ⟨"Main", .void, [], false, none, none, [.pair "EntryPoint" none], [⟨0⟩], false⟩]
  blocks := #[⟨some "entry", some ⟨4⟩, [⟨0⟩, ⟨1⟩, ⟨2⟩, ⟨3⟩, ⟨4⟩, ⟨5⟩, ⟨6⟩], false⟩]
  instrs := #[
    ⟨.call .none, .ptr (.named "Qubit"), [.func ⟨0⟩], some "a", some ⟨0⟩, false⟩,
    ⟨.call .none, .ptr (.named "Array"), [.int 64 2, .func ⟨1⟩], some "r", some ⟨0⟩, false⟩,
    ⟨.call .none, .ptr (.int 8), [.instr ⟨1⟩, .int 64 1, .func ⟨2⟩], some "p", some ⟨0⟩, false⟩,
    ⟨.cast .bitcast, .ptr (.ptr (.named "Qubit")), [.instr ⟨2⟩], some "c", some ⟨0⟩, false⟩,
    ⟨.load none, .ptr (.named "Qubit"), [.instr ⟨3⟩], some "q", some ⟨0⟩, false⟩,
    ⟨.call .none, .void, [.instr ⟨0⟩, .instr ⟨4⟩, .func ⟨3⟩], none, some ⟨0⟩, false⟩,
    ⟨.ret, .void, [], none, some ⟨0⟩, false⟩]

theorem applyRules_addresses_narrow : ∃ stats c a x start,
    applyRules ({} : RuleSettings).rules {} {} { program := narrow } = .ok stats c ∧
    Granted {} (startOf { program := narrow }) (tried {} {} narrow {}) (·.qubits) ⟨1⟩ x 2 start ∧
    c.program.address? a = some (start + 1) := by
  obtain ⟨stats, c, hrun, -⟩ := exists_ok
    (r := applyRules ({} : RuleSettings).rules {} {} { program := narrow }) (P := fun _ => True)
    (by decide +kernel)
  have hp : narrow.Sound := by decide +kernel
  have hbooks := Allocator.sound_withCapacity 8 true
  obtain ⟨hpointers, -⟩ := applyRules_addresses {} {} (c := { program := narrow }) hp hbooks hbooks hrun
  obtain ⟨a, ha⟩ : ∃ a, ⟨⟨4⟩, some a⟩ ∈ (lastOf {} {} { program := narrow }).scheduled :=
    ⟨⟨9⟩, by decide +kernel⟩
  obtain ⟨-, -, -, helement⟩ := hpointers ⟨4⟩ a ha
  have hreads : narrow.ReadsElement ⟨4⟩ (.instr ⟨1⟩) 64 1 :=
    ⟨⟨none, rfl⟩, .instr ⟨3⟩, ⟨2⟩, rfl, rfl, rfl, rfl, by decide, .func ⟨2⟩, rfl⟩
  have hcall : narrow.AllocatesQubits ⟨1⟩ 2 := .array rfl ⟨rfl, by decide, .func ⟨1⟩, rfl⟩
  obtain ⟨x, start, hgranted, -, hcarried⟩ := helement ⟨1⟩ 64 1 2 hreads hcall
  obtain ⟨run, c₁, _, _, hwent, -⟩ := applyRules_went hp hrun
  have hbelow := hgranted.below Work.moves_qubits hp hwent.attends hbooks
  refine ⟨stats, c, a, x, start, hrun, hgranted, hcarried 1 rfl ?_ (.inl (Nat.le_refl _))⟩
  change start + 1 < span 64
  omega

/-- At width 1 the element at address 2 is given address 0, that of another qubit. -/
theorem narrow_element_misplaced : narrow.Sound ∧ narrow.verify = .ok () ∧ ∃ stats c,
    applyRules ({ integerWidth := 1 } : RuleSettings).rules {} {} { program := narrow } = .ok stats c ∧
    c.addresses.qubits.live = [⟨"a", 0, 1⟩, ⟨"r", 1, 2⟩] ∧
    ((c.program.block ⟨0⟩).instrs.map fun i => ((c.program.instr i).name, c.program.address? i)) =
      [(some "a", some 0), (some "r", some 1), (some "q", some 0), (none, none), (none, none)] :=
  ⟨by decide +kernel, by rfl, exists_ok (by decide +kernel)⟩

end Transform

end QirProfile
