import QirProfile.Proofs.Program.Nodes
import QirProfile.Verify

/-!
# What a verified program looks like

`verify` lists problems. `Verified` says the same as a property of the program: every block of a live
function ends in its only terminator, its phis come first, and every operand refers to something that
may be used there. `verify_ok` proves the two equal, so no later proof opens the lists.
-/

namespace QirProfile

/-- Whether an instruction is a phi. -/
def Instr.isPhi (i : Instr) : Bool :=
  match i.kind with
  | .phi _ => true
  | _ => false

theorem Instr.isPhi_iff {i : Instr} : i.isPhi = true ↔ ∃ incoming, i.kind = .phi incoming := by
  unfold isPhi
  cases i.kind <;> simp

namespace Program

/-- What is asked of an instruction in a block. -/
structure InstrFits (p : Program) (f : FuncId) (b : BlockId) (id : InstrId) : Prop where
  parent : (p.instr id).parent = some b
  last : (p.instr id).isTerminator = true → (p.block b).terminator? = some id
  incoming : ∀ blocks, (p.instr id).kind = .phi blocks →
    blocks.length = (p.instr id).operands.length ∧
      ∀ c ∈ blocks, (p.block c).erased = false ∧ (p.block c).parent = some f
  operands : ∀ v ∈ (p.instr id).operands, p.operandProblem? f v = none

/-- What is asked of a block of a function. -/
structure BlockFits (p : Program) (f : FuncId) (b : BlockId) : Prop where
  ends : ∃ last, (p.block b).terminator? = some last ∧ (p.instr last).isTerminator = true
  instrs : ∀ id ∈ (p.block b).instrs, p.InstrFits f b id
  phisFirst : (p.block b).instrs.Pairwise fun i j =>
    (p.instr j).isPhi = true → (p.instr i).isPhi = true

/-- Every block of a live function is as it should be. -/
def Verified (p : Program) : Prop :=
  ∀ f, (p.func f).erased = false → ∀ b ∈ (p.func f).blocks, p.BlockFits f b

variable {p : Program} {f : FuncId} {b : BlockId}

theorem operandProblem?_block (h : p.operandProblem? f (.block b) = none) :
    (p.block b).parent = some f := by
  unfold operandProblem? at h
  by_contra hparent
  rw [if_pos hparent] at h
  split at h <;> cases h

theorem phiProblems_eq_nil {i : Instr} {what label : String} {seenOther : Bool}
    {incoming : List BlockId} : p.phiProblems f i what label seenOther incoming = [] ↔
      seenOther = false ∧ incoming.length = i.operands.length ∧
        ∀ c ∈ incoming, (p.block c).erased = false ∧ (p.block c).parent = some f := by
  unfold phiProblems
  simp only [List.append_eq_nil_iff, ite_eq_right_iff, List.cons_ne_nil, imp_false,
    Bool.not_eq_true, not_not, List.filterMap_eq_nil_iff, reduceCtorEq, not_or, and_assoc]

theorem instrProblems_eq_nil {label : String} {last id : InstrId} {seenOther : Bool}
    (hlast : (p.block b).terminator? = some last) :
    p.instrProblems f b label last seenOther id = [] ↔
      p.InstrFits f b id ∧ ((p.instr id).isPhi = true → seenOther = false) := by
  have hphi : (match (p.instr id).kind with
      | .phi incoming => p.phiProblems f (p.instr id) ("@" ++ (p.func f).name ++ ": " ++
          p.label (.instr id)) label seenOther incoming
      | _ => []) = [] ↔ ((p.instr id).isPhi = true → seenOther = false) ∧
        ∀ incoming, (p.instr id).kind = .phi incoming →
          incoming.length = (p.instr id).operands.length ∧
            ∀ c ∈ incoming, (p.block c).erased = false ∧ (p.block c).parent = some f := by
    unfold Instr.isPhi
    cases hkind : (p.instr id).kind with
    | phi incoming => simp [phiProblems_eq_nil]
    | _ => simp
  have hterminator : (¬ ((p.instr id).isTerminator = true ∧ id ≠ last)) ↔
      ((p.instr id).isTerminator = true → (p.block b).terminator? = some id) := by
    rw [hlast, Option.some_inj, not_and, not_not]
    exact ⟨fun h ht => (h ht).symm, fun h ht => (h ht).symm⟩
  unfold instrProblems
  simp only [List.append_eq_nil_iff, ite_eq_right_iff, List.cons_ne_nil, imp_false, not_not,
    hterminator, List.filterMap_eq_nil_iff, Option.map_eq_none_iff]
  constructor
  · rintro ⟨⟨⟨hparent, hlast⟩, hkind⟩, hoperands⟩
    obtain ⟨hfirst, hincoming⟩ := hphi.mp hkind
    exact ⟨⟨hparent, hlast, hincoming, hoperands⟩, hfirst⟩
  · rintro ⟨⟨hparent, hlast, hincoming, hoperands⟩, hfirst⟩
    exact ⟨⟨⟨hparent, hlast⟩, hphi.mpr ⟨hfirst, hincoming⟩⟩, hoperands⟩

theorem bodyProblems_eq_nil {label : String} {last : InstrId}
    (hlast : (p.block b).terminator? = some last) (seenOther : Bool) (ids : List InstrId) :
    p.bodyProblems f b label last seenOther ids = [] ↔
      (∀ id ∈ ids, p.InstrFits f b id) ∧
        (ids.Pairwise fun i j => (p.instr j).isPhi = true → (p.instr i).isPhi = true) ∧
        ∀ id ∈ ids, (p.instr id).isPhi = true → seenOther = false := by
  induction ids generalizing seenOther with
  | nil => simp [bodyProblems]
  | cons id rest ih =>
    have hstep : p.bodyProblems f b label last seenOther (id :: rest) =
        p.instrProblems f b label last seenOther id ++
          p.bodyProblems f b label last (seenOther || !(p.instr id).isPhi) rest := rfl
    rw [hstep, List.append_eq_nil_iff, instrProblems_eq_nil hlast, ih]
    simp only [List.forall_mem_cons, List.pairwise_cons, Bool.or_eq_false_iff,
      Bool.not_eq_eq_eq_not, Bool.not_false]
    constructor
    · rintro ⟨⟨hfits, hfirst⟩, hrest, hpairs, hphis⟩
      exact ⟨⟨hfits, hrest⟩, ⟨fun i hi hphi => (hphis i hi hphi).2, hpairs⟩, hfirst,
        fun i hi hphi => (hphis i hi hphi).1⟩
    · rintro ⟨⟨hfits, hrest⟩, ⟨hhead, hpairs⟩, hfirst, hphis⟩
      exact ⟨⟨hfits, hfirst⟩, hrest, hpairs, fun i hi hphi => ⟨hphis i hi hphi, hhead i hi hphi⟩⟩

theorem blockProblems_eq_nil : p.blockProblems f b = [] ↔ p.BlockFits f b := by
  unfold blockProblems
  cases hlast : (p.block b).terminator? with
  | none =>
    constructor
    · intro h
      cases h
    · rintro ⟨⟨last, h, -⟩, -, -⟩
      rw [hlast] at h
      cases h
  | some last =>
    simp only [List.append_eq_nil_iff, ite_eq_left_iff, List.cons_ne_nil, imp_false, not_not,
      bodyProblems_eq_nil hlast]
    constructor
    · rintro ⟨hterminator, hinstrs, hpairs, -⟩
      exact ⟨⟨last, hlast, hterminator⟩, hinstrs, hpairs⟩
    · rintro ⟨⟨last', hlast', hterminator⟩, hinstrs, hpairs⟩
      rw [hlast, Option.some_inj] at hlast'
      exact ⟨hlast' ▸ hterminator, hinstrs, hpairs, fun _ _ _ => trivial⟩

/-- A program is verified just if `verify` finds nothing. -/
theorem verify_ok : p.verify = .ok () ↔ p.Verified := by
  have hproblems : p.verify = .ok () ↔ p.problems = [] := by
    unfold verify
    cases p.problems <;> simp
  rw [hproblems]
  unfold problems Verified
  simp only [List.flatMap_eq_nil_iff, mem_liveFunctions, blockProblems_eq_nil]

end Program

end QirProfile
