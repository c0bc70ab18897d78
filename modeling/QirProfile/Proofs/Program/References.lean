import QirProfile.Proofs.Program.Edits
import QirProfile.Proofs.Verify

/-!
# What the operands of a verified program refer to

A value refers to whatever it mentions, at any depth inside constants. `verify` does not go to every
depth: of a conversion it looks at the value that is converted and of an address at the base, but
the elements of an array or a structure and the indices of an address it passes over.
-/

namespace QirProfile

open Value (mentions mentionsAny)

namespace Value

/-! ## 1. In the open and buried -/

/-- The values that stand in the open: the operand itself, below a conversion the value that is
    converted, and below an address its base. -/
def inTheOpen : Value → List Value
  | .cast op v target => .cast op v target :: inTheOpen v
  | .gep inbounds source base vs ty => .gep inbounds source base vs ty :: inTheOpen base
  | v => [v]

/-- Whether `needle` occurs in an element of an array or a structure, or in the index of an
    address. -/
def buries (needle : Value) : Value → Bool
  | .array _ vs | .struct _ vs => mentionsAny needle vs
  | .cast _ v _ => buries needle v
  | .gep _ _ base vs _ => buries needle base || mentionsAny needle vs
  | _ => false

theorem mentions_iff {needle : Value} :
    (v : Value) → (mentions needle v = true ↔ needle ∈ inTheOpen v ∨ buries needle v = true)
  | .cast _ v _ => by
    simp [mentions, inTheOpen, buries, mentions_iff v, eq_comm (a := needle), or_assoc]
  | .gep _ _ base _ _ => by
    simp [mentions, inTheOpen, buries, mentions_iff base, eq_comm (a := needle), or_assoc]
  | .array _ _ | .struct _ _ | .instr _ | .arg _ _ | .block _ | .func _ | .global _ | .int _ _
  | .float _ _ | .null _ | .undef _ | .zero _ | .bytes _ => by
    simp [mentions, inTheOpen, buries, eq_comm (a := needle)]

end Value

open Value (inTheOpen buries)

namespace Program

variable {p : Program} {f : FuncId} {i : InstrId}

/-! ## 2. Usable nodes -/

/-- Whether a node may be used in a function: it is not erased, and an instruction, a block or an
    argument belongs to the function. Globals and constants may be used everywhere. -/
def Usable (p : Program) (f : FuncId) : Value → Prop
  | .instr i => (p.instr i).erased = false ∧ p.functionOf? i = some f
  | .block b => (p.block b).erased = false ∧ (p.block b).parent = some f
  | .arg owner _ => owner = f
  | .func k => (p.func k).erased = false
  | _ => True

theorem operandProblem?_eq_none_iff :
    (v : Value) → (p.operandProblem? f v = none ↔ ∀ w ∈ inTheOpen v, p.Usable f w)
  | .instr _ | .block _ => by
    simp only [operandProblem?, inTheOpen, Usable, List.forall_mem_singleton]
    split_ifs <;> simp_all
  | .arg _ _ | .func _ => by
    simp [operandProblem?, inTheOpen, Usable]
  | .cast _ v _ => by
    simp [operandProblem?, inTheOpen, Usable, operandProblem?_eq_none_iff v]
  | .gep _ _ base _ _ => by
    simp [operandProblem?, inTheOpen, Usable, operandProblem?_eq_none_iff base]
  | .global _ | .int _ _ | .float _ _ | .null _ | .undef _ | .zero _ | .bytes _ | .array _ _
  | .struct _ _ => by
    simp [operandProblem?, inTheOpen, Usable]

theorem Verified.instrFits (hv : p.Verified) (hf : (p.func f).erased = false)
    (hi : i ∈ p.instrsOf f) : ∃ b ∈ (p.func f).blocks, p.InstrFits f b i := by
  obtain ⟨b, hb, hib⟩ := List.mem_flatMap.mp hi
  exact ⟨b, hb, (hv f hf b hb).instrs i hib⟩

/-! ## 3. Verified programs -/

/-- What an operand of a verified program mentions may be used there, unless it is buried in an
    array, a structure or an index. -/
theorem verify_references (hverify : p.verify = .ok ()) (hf : (p.func f).erased = false)
    (hi : i ∈ p.instrsOf f) {v needle : Value} (hv : v ∈ (p.instr i).operands)
    (hmentions : mentions needle v = true) : p.Usable f needle ∨ buries needle v = true := by
  obtain ⟨b, -, hfits⟩ := (verify_ok.mp hverify).instrFits hf hi
  have hopen : ∀ w ∈ inTheOpen v, p.Usable f w :=
    (operandProblem?_eq_none_iff v).mp (hfits.operands v hv)
  rcases (Value.mentions_iff v).mp hmentions with hneedle | hburied
  · exact .inl (hopen needle hneedle)
  · exact .inr hburied

/-- A function that converts its parameter twice, one without a result, and one whose result is a
    structure that holds the address of the second. -/
def packing : Program where
  name := "packing"
  functions := #[
    ⟨"F", .int 64, [⟨some "p", .ptr (.int 8)⟩], false, none, none, [], [⟨0⟩], false⟩,
    ⟨"f", .void, [], false, none, none, [], [⟨1⟩], false⟩,
    ⟨"g", .struct [.ptr (.func .void [] false)], [], false, none, none, [], [⟨2⟩], false⟩]
  blocks := #[
    ⟨some "entry", some ⟨0⟩, [⟨0⟩, ⟨1⟩], false⟩,
    ⟨some "entry", some ⟨1⟩, [⟨2⟩], false⟩,
    ⟨some "entry", some ⟨2⟩, [⟨3⟩], false⟩]
  instrs := #[
    ⟨.cast .ptrtoint, .int 64, [.cast .bitcast (.arg ⟨0⟩ 0) (.ptr (.int 64))], some "x", some ⟨0⟩,
      false⟩,
    ⟨.ret, .void, [.instr ⟨0⟩], none, some ⟨0⟩, false⟩,
    ⟨.ret, .void, [], none, some ⟨1⟩, false⟩,
    ⟨.ret, .void, [.struct (.struct [.ptr (.func .void [] false)]) [.func ⟨1⟩]], none, some ⟨2⟩,
      false⟩]

theorem verify_references_packing : packing.verify = .ok () ∧
    (packing.Usable ⟨0⟩ (.arg ⟨0⟩ 0) ∨
      buries (.arg ⟨0⟩ 0) (.cast .bitcast (.arg ⟨0⟩ 0) (.ptr (.int 64))) = true) :=
  have hverify : packing.verify = .ok () := by rfl
  ⟨hverify, verify_references (i := ⟨0⟩) hverify (by decide) (by decide +kernel)
    (by decide +kernel) (by decide +kernel)⟩

/-- A structure refers to an erased function, and the program is verified. -/
theorem buried_unseen : packing.Sound ∧ ∃ q, packing.eraseFunction ⟨1⟩ = .ok q ∧
    q.verify = .ok () ∧ (q.func ⟨2⟩).erased = false ∧ ⟨3⟩ ∈ q.instrsOf ⟨2⟩ ∧
      (q.instr ⟨3⟩).uses (.func ⟨1⟩) = true ∧ (q.func ⟨1⟩).erased = true :=
  ⟨by decide +kernel, _, rfl, rfl, by decide, by decide +kernel, by decide +kernel, by decide⟩

end Program

end QirProfile
