import Mathlib.Data.List.Nodup
import QirProfile.Program.Edit
import QirProfile.Program.Uses

/-!
# Nodes after an edit

Every edit is made of changes of single nodes and of new nodes at the end. This file says what each
node is afterwards, so that no later proof opens the arrays of a program.
-/

namespace QirProfile

variable {f : FuncId} {b : BlockId} {i : InstrId}

theorem FuncId.index_ne {g : FuncId} (h : f ≠ g) : f.index ≠ g.index := by
  cases f
  cases g
  simpa using h

theorem BlockId.index_ne {c : BlockId} (h : b ≠ c) : b.index ≠ c.index := by
  cases b
  cases c
  simpa using h

theorem InstrId.index_ne {j : InstrId} (h : i ≠ j) : i.index ≠ j.index := by
  cases i
  cases j
  simpa using h

namespace Program

variable {p : Program}

/-! ## 1. Changed nodes -/

section

variable (p) (f : FuncId) (b : BlockId) (i : InstrId)

@[simp] theorem block_updateFunc (g : Func → Func) : (p.updateFunc f g).block b = p.block b := rfl

@[simp] theorem instr_updateFunc (g : Func → Func) : (p.updateFunc f g).instr i = p.instr i := rfl

@[simp] theorem func_updateBlock (g : Block → Block) : (p.updateBlock b g).func f = p.func f := rfl

@[simp] theorem instr_updateBlock (g : Block → Block) :
    (p.updateBlock b g).instr i = p.instr i := rfl

@[simp] theorem func_updateInstr (g : Instr → Instr) : (p.updateInstr i g).func f = p.func f := rfl

@[simp] theorem block_updateInstr (g : Instr → Instr) :
    (p.updateInstr i g).block b = p.block b := rfl

end

theorem func_updateFunc (p : Program) (f : FuncId) (g : Func → Func) (h : FuncId) :
    (p.updateFunc f g).func h =
      if f = h ∧ f.index < p.functions.size then g (p.func h) else p.func h := by
  by_cases hfh : f = h
  · subst hfh
    by_cases hlt : f.index < p.functions.size
    · simp [updateFunc, func, hlt, Array.getElem_modify]
    · simp [updateFunc, func, hlt]
  · have hne := FuncId.index_ne hfh
    simp [updateFunc, func, hfh, Array.getElem?_modify, hne]

theorem block_updateBlock (p : Program) (b : BlockId) (g : Block → Block) (c : BlockId) :
    (p.updateBlock b g).block c =
      if b = c ∧ b.index < p.blocks.size then g (p.block c) else p.block c := by
  by_cases hbc : b = c
  · subst hbc
    by_cases hlt : b.index < p.blocks.size
    · simp [updateBlock, block, hlt, Array.getElem_modify]
    · simp [updateBlock, block, hlt]
  · have hne := BlockId.index_ne hbc
    simp [updateBlock, block, hbc, Array.getElem?_modify, hne]

theorem instr_updateInstr (p : Program) (i : InstrId) (g : Instr → Instr) (j : InstrId) :
    (p.updateInstr i g).instr j =
      if i = j ∧ i.index < p.instrs.size then g (p.instr j) else p.instr j := by
  by_cases hij : i = j
  · subst hij
    by_cases hlt : i.index < p.instrs.size
    · simp [updateInstr, instr, hlt, Array.getElem_modify]
    · simp [updateInstr, instr, hlt]
  · have hne := InstrId.index_ne hij
    simp [updateInstr, instr, hij, Array.getElem?_modify, hne]

theorem instr_setInstrName (p : Program) (id : InstrId) (name : Option String) (i : InstrId) :
    ∃ n, (p.setInstrName id name).instr i = { p.instr i with name := n } := by
  unfold setInstrName
  rw [instr_updateInstr]
  split
  · exact ⟨name, rfl⟩
  · exact ⟨(p.instr i).name, rfl⟩

theorem kind_takeName (p : Program) (source target i : InstrId) :
    ((p.takeName source target).instr i).kind = (p.instr i).kind := by
  obtain ⟨n, hn⟩ := instr_setInstrName (p.setInstrName source none) target (p.instr source).name i
  obtain ⟨m, hm⟩ := instr_setInstrName p source none i
  rw [Program.takeName, hn, hm]

theorem instr_takeName (p : Program) (source target i : InstrId) :
    ∃ n, (p.takeName source target).instr i = { p.instr i with name := n } := by
  obtain ⟨n, hn⟩ := instr_setInstrName (p.setInstrName source none) target (p.instr source).name i
  obtain ⟨n', hn'⟩ := instr_setInstrName p source none i
  exact ⟨n, by rw [takeName, hn, hn']⟩

theorem func_updateFunc_self (h : f.index < p.functions.size) (g : Func → Func) :
    (p.updateFunc f g).func f = g (p.func f) := by
  rw [func_updateFunc, if_pos ⟨rfl, h⟩]

theorem block_updateBlock_self (h : b.index < p.blocks.size) (g : Block → Block) :
    (p.updateBlock b g).block b = g (p.block b) := by
  rw [block_updateBlock, if_pos ⟨rfl, h⟩]

theorem instr_updateInstr_self (h : i.index < p.instrs.size) (g : Instr → Instr) :
    (p.updateInstr i g).instr i = g (p.instr i) := by
  rw [instr_updateInstr, if_pos ⟨rfl, h⟩]

theorem func_updateFunc_ne {h : FuncId} (hne : f ≠ h) (g : Func → Func) :
    (p.updateFunc f g).func h = p.func h := by
  rw [func_updateFunc, if_neg fun hand => hne hand.1]

theorem block_updateBlock_ne {c : BlockId} (hne : b ≠ c) (g : Block → Block) :
    (p.updateBlock b g).block c = p.block c := by
  rw [block_updateBlock, if_neg fun hand => hne hand.1]

theorem instr_updateInstr_ne {j : InstrId} (hne : i ≠ j) (g : Instr → Instr) :
    (p.updateInstr i g).instr j = p.instr j := by
  rw [instr_updateInstr, if_neg fun hand => hne hand.1]

/-! ## 2. New nodes -/

theorem func_push (p : Program) (fn : Func) (g : FuncId) :
    ({ p with functions := p.functions.push fn } : Program).func g =
      if g.index = p.functions.size then fn else p.func g := by
  by_cases hg : g.index = p.functions.size
  · simp [func, hg]
  · simp [func, hg, Array.getElem?_push]

theorem block_push (p : Program) (bb : Block) (c : BlockId) :
    ({ p with blocks := p.blocks.push bb } : Program).block c =
      if c.index = p.blocks.size then bb else p.block c := by
  by_cases hc : c.index = p.blocks.size
  · simp [block, hc]
  · simp [block, hc, Array.getElem?_push]

theorem instr_push (p : Program) (ins : Instr) (j : InstrId) :
    ({ p with instrs := p.instrs.push ins } : Program).instr j =
      if j.index = p.instrs.size then ins else p.instr j := by
  by_cases hj : j.index = p.instrs.size
  · simp [instr, hj]
  · simp [instr, hj, Array.getElem?_push]

/-! ## 3. Handles of the program -/

theorem func_of_le (h : p.functions.size ≤ f.index) : p.func f = Func.tombstone := by
  simp [func, Nat.not_lt.mpr h]

theorem block_of_le (h : p.blocks.size ≤ b.index) : p.block b = Block.tombstone := by
  simp [block, Nat.not_lt.mpr h]

theorem instr_of_le (h : p.instrs.size ≤ i.index) : p.instr i = Instr.tombstone := by
  simp [instr, Nat.not_lt.mpr h]

theorem func_lt_of_live (h : (p.func f).erased = false) :
    f.index < p.functions.size := by
  by_contra hlt
  rw [func_of_le (Nat.not_lt.mp hlt)] at h
  cases h

theorem block_lt_of_live (h : (p.block b).erased = false) :
    b.index < p.blocks.size := by
  by_contra hlt
  rw [block_of_le (Nat.not_lt.mp hlt)] at h
  cases h

theorem instr_lt_of_live (h : (p.instr i).erased = false) :
    i.index < p.instrs.size := by
  by_contra hlt
  rw [instr_of_le (Nat.not_lt.mp hlt)] at h
  cases h

theorem instr_lt_of_parent (h : (p.instr i).parent = some b) :
    i.index < p.instrs.size := by
  by_contra hlt
  rw [instr_of_le (Nat.not_lt.mp hlt)] at h
  cases h

theorem block_lt_of_parent (h : (p.block b).parent = some f) :
    b.index < p.blocks.size := by
  by_contra hlt
  rw [block_of_le (Nat.not_lt.mp hlt)] at h
  cases h

theorem func_lt_of_mem (h : b ∈ (p.func f).blocks) :
    f.index < p.functions.size := by
  by_contra hlt
  rw [func_of_le (Nat.not_lt.mp hlt)] at h
  cases h

theorem block_lt_of_mem (h : i ∈ (p.block b).instrs) :
    b.index < p.blocks.size := by
  by_contra hlt
  rw [block_of_le (Nat.not_lt.mp hlt)] at h
  cases h

theorem mem_liveFunctions :
    f ∈ p.liveFunctions ↔ (p.func f).erased = false := by
  constructor
  · intro h
    simpa using (List.mem_filter.mp h).2
  · intro h
    refine List.mem_filter.mpr ⟨?_, by simpa using h⟩
    exact List.mem_map.mpr ⟨f.index, List.mem_range.mpr (func_lt_of_live h), rfl⟩

theorem nodup_liveFunctions (p : Program) : p.liveFunctions.Nodup := by
  unfold liveFunctions
  refine List.Nodup.filter _ (List.nodup_range.map ?_)
  intro a b hab
  exact congrArg FuncId.index hab

theorem toList_globals (p : Program) : p.globals.toList = p.globalIds.map p.global :=
  List.ext_getElem (by simp [globalIds]) (by simp +contextual [globalIds, global])

/-! ## 4. Replaced uses -/

theorem instr_replaceUses (p : Program) (old new : Value) (i : InstrId) :
    (p.replaceUses old new).instr i =
      if !(p.instr i).erased && (p.instr i).uses old then
        { p.instr i with operands := (p.instr i).operands.map (Value.substitute old new) }
      else p.instr i := by
  by_cases hlt : i.index < p.instrs.size
  · simp [replaceUses, instr, hlt]
  · rw [instr_of_le (Nat.not_lt.mp hlt)]
    simp [replaceUses, instr, hlt, Instr.tombstone]

theorem kind_replaceUses (p : Program) (old new : Value) (i : InstrId) :
    ((p.replaceUses old new).instr i).kind = (p.instr i).kind := by
  rw [instr_replaceUses]
  split <;> rfl

@[simp] theorem func_replaceUses (p : Program) (old new : Value) (f : FuncId) :
    (p.replaceUses old new).func f = p.func f := rfl

@[simp] theorem block_replaceUses (p : Program) (old new : Value) (b : BlockId) :
    (p.replaceUses old new).block b = p.block b := rfl

end Program

end QirProfile
