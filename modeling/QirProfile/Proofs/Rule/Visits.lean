import Mathlib.Data.List.Basic
import QirProfile.Proofs.Rule.Deciding

/-!
# What a visit does to the qubit addresses

Rules share the qubit allocator, and each rule that is tried on an instruction could use it. In fact
one visit makes at most one request (`QubitWork`).
-/

namespace QirProfile.Replacing

variable {s s' : RuleState Addresses} {width : Nat} {id : InstrId}

/-! ## 1. Steps that leave the qubit allocator alone -/

/-- The qubit allocator stands as before. -/
def SameQubits (s s' : RuleState Addresses) : Prop :=
  s'.extra.qubits = s.extra.qubits

instance : IsPreorder (RuleState Addresses) SameQubits where
  refl _ := rfl
  trans _ _ _ h₁ h₂ := h₂.trans h₁

variable {α : Type}

theorem program_ok {p : Program} (h : program s = .ok p s') :
    s.program = p ∧ s = s' := by
  cases h
  exact ⟨rfl, rfl⟩

theorem tidy_sameQubits : Tidy (fun {α} => Keeps (α := α) SameQubits) where
  toSequential := sequential_keeps
  edit _ s a s' h := by
    unfold edit at h
    split at h
    · cases h; rfl
    · cases h
  modify hf _ s _ s' h := by
    rw [modify_ok h]
    exact (hf s).1
  allocateResult name count s a s' h := by
    unfold onResults at h
    split at h
    · cases h; rfl
    · cases h

/-! ## 2. The work of a visit -/

/-- What trying rules on the instruction `id` did to the qubit allocator. -/
inductive QubitWork (width : Nat) (id : InstrId) (s s' : RuleState Addresses) : Prop where
  | idle (h : s'.extra.qubits = s.extra.qubits)
  /-- Addresses were handed out, and a pointer to the first one is to take the instruction's
      place. -/
  | placed {name : String} {count start : Nat} {address : InstrId}
      (h : Allocator.allocate name count s.extra.qubits = .ok start s'.extra.qubits)
      (hplace : ⟨id, some address⟩ ∈ s'.scheduled)
      (hkind : (s'.program.instr address).kind = .cast .inttoptr)
      (hoperands : (s'.program.instr address).operands = [.ofInt width start])
  | released {address : Nat}
      (h : Allocator.release address s.extra.qubits = .ok () s'.extra.qubits)

/-- A replacer does the work of one visit where it accepts, and nothing if it declines. -/
structure Orderly (width : Nat) (f : Replacer Addresses) : Prop where
  free : ∀ id c, Free (f id c)
  work : ∀ id c s s', f id c s = .ok true s' → QubitWork width id s s'

theorem orderly_of_sameQubits {f : Replacer Addresses} (hfree : ∀ id c, Free (f id c))
    (hf : ∀ id c, Keeps SameQubits (f id c)) : Orderly width f :=
  ⟨hfree, fun id c s s' h => .idle (hf id c s true s' h)⟩

theorem orderly_deleteInstr (width : Nat) : Orderly width deleteInstr :=
  orderly_of_sameQubits (catalogued_free width).deleteInstr tidy_sameQubits.deleteInstr

/-! ## 3. Rules that hand out qubits or take them back -/

theorem onQubits_ok {f : Allocating α} {a : α}
    (h : onQubits f s = .ok a s') :
    f s.extra.qubits = .ok a s'.extra.qubits ∧ s' = { s with extra.qubits := s'.extra.qubits } := by
  unfold onQubits at h
  split at h
  · rename_i q hf
    cases h
    exact ⟨hf, rfl⟩
  · cases h

theorem staticAddress_ok {address : Int} {ty : Ty}
    (h : staticAddress width address ty s = .ok id s') :
    s'.extra = s.extra ∧
      s'.program.instr id = ⟨.cast .inttoptr, ty, [.ofInt width address], none, none, false⟩ := by
  cases h
  refine ⟨rfl, ?_⟩
  simp [Program.instr]

theorem instr_replaceUses {p : Program} {old new : Value}
    (h : (p.instr id).uses old = false) : (p.replaceUses old new).instr id = p.instr id := by
  unfold Program.instr Program.replaceUses at *
  simp only [Array.getD_eq_getD_getElem?, Array.getElem?_map] at h ⊢
  cases hi : p.instrs[id.index]? with
  | none => rfl
  | some i =>
    rw [hi] at h
    simp only [Option.getD_some] at h
    simp [h]

theorem substituteAddress_ok {start : Nat} {ty : Ty} {address : InstrId}
    {u : Unit}
    (haddress : s.program.instr address =
      ⟨.cast .inttoptr, ty, [.ofInt width start], none, none, false⟩)
    (h : substituteAddress id address s = .ok u s') :
    s'.extra = s.extra ∧ ⟨id, some address⟩ ∈ s'.scheduled ∧
      (s'.program.instr address).kind = .cast .inttoptr ∧
      (s'.program.instr address).operands = [.ofInt width start] := by
  cases h
  have hsame : (s.program.replaceUses (.instr id) (.instr address)).instr address =
      s.program.instr address := by
    apply instr_replaceUses
    rw [haddress]
    rfl
  refine ⟨rfl, List.mem_append_right _ (List.mem_singleton_self _), ?_, ?_⟩
  · exact hsame ▸ haddress ▸ rfl
  · exact hsame ▸ haddress ▸ rfl

theorem orderly_allocateQubit (width : Nat) : Orderly width (allocateQubit width) := by
  refine ⟨free_allocateQubit width, fun id c s s' h => ?_⟩
  unfold allocateQubit at h
  obtain ⟨p, s₁, hp, h⟩ := bind_ok h
  obtain ⟨rfl, rfl⟩ := program_ok hp
  dsimp only at h
  split at h
  · cases h
  obtain ⟨start, s₂, hstart, h⟩ := bind_ok h
  obtain ⟨address, s₃, haddress, h⟩ := bind_ok h
  obtain ⟨_, s₄, hsub, h⟩ := bind_ok h
  obtain ⟨-, rfl⟩ := pure_ok h
  obtain ⟨hallocate, -⟩ := onQubits_ok hstart
  obtain ⟨hextra, hinstr⟩ := staticAddress_ok haddress
  obtain ⟨hextra', hplace, hkind, hoperands⟩ := substituteAddress_ok hinstr hsub
  rw [← hextra, ← hextra'] at hallocate
  exact .placed hallocate hplace hkind hoperands

theorem orderly_allocateArray (width : Nat) : Orderly width (allocateArray width) := by
  refine ⟨free_allocateArray width, fun id c s s' h => ?_⟩
  unfold allocateArray at h
  obtain ⟨p, s₁, hp, h⟩ := bind_ok h
  obtain ⟨rfl, rfl⟩ := program_ok hp
  cases hsize : c.int? "size" with
  | none =>
    rw [hsize] at h
    cases h
  | some size =>
  rw [hsize] at h
  dsimp only at h
  split at h
  · cases h
  obtain ⟨start, s₂, hstart, h⟩ := bind_ok h
  obtain ⟨address, s₃, haddress, h⟩ := bind_ok h
  obtain ⟨hallocate, -⟩ := onQubits_ok hstart
  obtain ⟨hextra, hinstr⟩ := staticAddress_ok haddress
  -- noting an empty array touches neither the program nor the qubits
  have hlast : ∃ s₄, s₄.extra.qubits = s₃.extra.qubits ∧ s₄.program = s₃.program ∧
      (do substituteAddress id address; return true : Replacing Addresses Bool) s₄ = .ok true s' := by
    split at h
    · obtain ⟨_, s₄, hmod, h⟩ := bind_ok h
      obtain rfl := modify_ok hmod
      exact ⟨{ s₃ with extra.emptyArrays := address :: s₃.extra.emptyArrays }, rfl, rfl, h⟩
    · exact ⟨s₃, rfl, rfl, h⟩
  obtain ⟨s₄, hqubits, hprogram, h⟩ := hlast
  obtain ⟨_, s₅, hsub, h⟩ := bind_ok h
  obtain ⟨-, rfl⟩ := pure_ok h
  obtain ⟨hextra', hplace, hkind, hoperands⟩ :=
    substituteAddress_ok (hprogram ▸ hinstr) hsub
  rw [← hextra, ← hqubits, ← hextra'] at hallocate
  exact .placed hallocate hplace hkind hoperands

theorem orderly_releaseQubit (width : Nat) : Orderly width releaseQubit := by
  refine ⟨free_releaseQubit, fun id c s s' h => ?_⟩
  unfold releaseQubit at h
  cases hconst : c.int? "const" with
  | none =>
    rw [hconst] at h
    cases h
  | some address =>
  rw [hconst] at h
  dsimp only at h
  split at h
  · cases h
  obtain ⟨_, s₁, hrelease, h⟩ := bind_ok h
  obtain ⟨_, s₂, hdelete, h⟩ := bind_ok h
  obtain ⟨-, rfl⟩ := pure_ok h
  obtain ⟨hgiven, -⟩ := onQubits_ok hrelease
  have hsame : s₂.extra.qubits = s₁.extra.qubits := tidy_sameQubits.scheduleDelete id s₁ _ s₂ hdelete
  rw [← hsame] at hgiven
  exact .released hgiven

theorem orderly_releaseArray (width : Nat) : Orderly width releaseArray := by
  refine ⟨free_releaseArray, fun id c s s' h => ?_⟩
  unfold releaseArray at h
  obtain ⟨t, u, hget, h⟩ := bind_ok h
  obtain ⟨rfl, rfl⟩ := get_ok hget
  dsimp only at h
  split at h
  · exact (orderly_deleteInstr width).work id c s s' h
  · exact (orderly_releaseQubit width).work id c s s' h

/-! ## 4. Trying rules -/

theorem catalogued_orderly (width : Nat) : Catalogued width (Orderly width) where
  deleteInstr := orderly_deleteInstr width
  readResult negated := orderly_of_sameQubits (free_readResult negated) (tidy_sameQubits.readResult negated)
  allocateArray := orderly_allocateArray width
  accessElement := orderly_of_sameQubits (free_accessElement width) (tidy_sameQubits.accessElement width)
  releaseArray := orderly_releaseArray width
  allocateQubit := orderly_allocateQubit width
  releaseQubit := orderly_releaseQubit width
  measure := orderly_of_sameQubits (free_measure width) (tidy_sameQubits.measure width)
  resolveSize := orderly_of_sameQubits free_resolveSize tidy_sameQubits.resolveSize

/-- One visit makes at most one request. -/
theorem qubitWork_applyFirst {rules : List (Rule Addresses)}
    (hrules : ∀ r ∈ rules, EachReplacer (Orderly width) r) {b : Bool}
    (h : applyFirst rules id s = .ok b s') : QubitWork width id s s' := by
  unfold applyFirst at h
  obtain ⟨p, s₁, hp, h⟩ := bind_ok h
  obtain ⟨rfl, rfl⟩ := program_ok hp
  split at h
  · obtain ⟨-, rfl⟩ := pure_ok h
    exact .idle rfl
  rcases firstAccepting_decided (fun r hr f hf => (hrules r hr f hf).free) s id with
    ⟨-, hrun⟩ | ⟨⟨rfl, -, -, hreplacer, hresult⟩, hsettled⟩
  · cases hrun.symm.trans h
    exact .idle rfl
  · rw [h] at hresult hsettled
    cases b with
    | true => exact (hrules _ (by simp) _ hreplacer).work _ _ _ _ hresult
    | false => exact absurd rfl (hsettled s')

end QirProfile.Replacing
