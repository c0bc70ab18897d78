import QirProfile.Program.Specialise
import QirProfile.Proofs.Program.Arena

/-!
# Copies stand where their sources stand

A copy of a function has a block for each block and an instruction for each instruction of its
source, at the end of the program. `withCopy` is the program with the copy, and its nodes are given
by those of the source: `block_withCopy_new`, `instr_withCopy_new`.
-/

namespace QirProfile

variable {k : Nat} {b : BlockId} {i : InstrId}

/-! ## 1. Places in lists -/

theorem idxOf?_getElem {α : Type} [BEq α] [LawfulBEq α] {l : List α} (hl : l.Nodup)
    (hk : k < l.length) : l.idxOf? l[k] = some k := by
  rw [List.idxOf?_eq_some_iff]
  refine ⟨hk, by simp, ?_⟩
  intro j hj heq
  have hlt : j < l.length := Nat.lt_trans hj hk
  have : j = k := (List.Nodup.getElem_inj_iff hl).mp (by simpa using heq)
  omega

namespace Renaming

variable {r : Renaming}

/-- The instruction of the copy for an instruction of the source; others stay. -/
def instrId (r : Renaming) (i : InstrId) : InstrId :=
  match r.instrs.idxOf? i with
  | some k => ⟨r.firstInstr + k⟩
  | none => i

theorem value_instr (r : Renaming) (i : InstrId) : r.value (.instr i) = .instr (r.instrId i) := by
  unfold value instrId
  dsimp only
  cases r.instrs.idxOf? i <;> rfl

theorem block_getElem (hr : r.blocks.Nodup) (hk : k < r.blocks.length) :
    r.block r.blocks[k] = ⟨r.firstBlock + k⟩ := by
  rw [block, idxOf?_getElem hr hk]

theorem instrId_getElem (hr : r.instrs.Nodup) (hk : k < r.instrs.length) :
    r.instrId r.instrs[k] = ⟨r.firstInstr + k⟩ := by
  rw [instrId, idxOf?_getElem hr hk]

theorem block_inj (hr : r.blocks.Nodup) {c : BlockId} (hb : b ∈ r.blocks) (hc : c ∈ r.blocks)
    (h : r.block b = r.block c) : b = c := by
  obtain ⟨k, hk, rfl⟩ := List.getElem_of_mem hb
  obtain ⟨m, hm, rfl⟩ := List.getElem_of_mem hc
  rw [block_getElem hr hk, block_getElem hr hm] at h
  have : k = m := by simpa using h
  subst this
  rfl

theorem instrId_inj (hr : r.instrs.Nodup) {j : InstrId} (hi : i ∈ r.instrs) (hj : j ∈ r.instrs)
    (h : r.instrId i = r.instrId j) : i = j := by
  obtain ⟨k, hk, rfl⟩ := List.getElem_of_mem hi
  obtain ⟨m, hm, rfl⟩ := List.getElem_of_mem hj
  rw [instrId_getElem hr hk, instrId_getElem hr hm] at h
  have : k = m := by simpa using h
  subst this
  rfl

theorem le_block (hr : r.blocks.Nodup) (hb : b ∈ r.blocks) :
    r.firstBlock ≤ (r.block b).index := by
  obtain ⟨k, hk, rfl⟩ := List.getElem_of_mem hb
  rw [block_getElem hr hk]
  exact Nat.le_add_right _ _

theorem le_instrId (hr : r.instrs.Nodup) (hi : i ∈ r.instrs) :
    r.firstInstr ≤ (r.instrId i).index := by
  obtain ⟨k, hk, rfl⟩ := List.getElem_of_mem hi
  rw [instrId_getElem hr hk]
  exact Nat.le_add_right _ _

end Renaming

namespace Program

variable {p q : Program}

/-! ## 2. Fresh names -/

theorem suffix_injective {base : String} {m n : Nat}
    (h : base ++ "." ++ toString m = base ++ "." ++ toString n) : m = n := by
  simp only [← String.toList_inj, String.toList_append] at h
  have hdigits := List.append_cancel_left h
  have hvalue : ∀ k : Nat, Nat.ofDigitChars 10 (toString k).toList 0 = k := by
    intro k
    rw [show (toString k).toList = Nat.toDigits 10 k from Nat.toList_repr]
    exact Nat.ofDigitChars_ten_toDigits
  rw [← hvalue m, ← hvalue n, hdigits]

theorem freshName_fresh (base : String) (fuel : Nat) :
    ∀ (n : Nat) (taken all : List String), taken.length ≤ fuel →
      (∀ x ∈ all, x ∈ taken ∨ ∃ j < n, x = base ++ "." ++ toString j) →
      ∃ j : Nat, freshName base fuel n taken = base ++ "." ++ toString j ∧
        base ++ "." ++ toString j ∉ all := by
  induction fuel with
  | zero =>
    intro n taken all hlen hall
    obtain rfl : taken = [] := List.length_eq_zero_iff.mp (by omega)
    refine ⟨n, rfl, fun hmem => ?_⟩
    rcases hall _ hmem with h | ⟨j, hj, h⟩
    · cases h
    · have := suffix_injective h
      omega
  | succ fuel ih =>
    intro n taken all hlen hall
    simp only [freshName]
    split
    · rename_i htaken
      have hmem : base ++ "." ++ toString n ∈ taken := List.contains_iff_mem.mp htaken
      apply ih
      · rw [List.length_erase_of_mem hmem]
        omega
      · intro x hx
        rcases hall x hx with h | ⟨j, hj, h⟩
        · by_cases hxn : x = base ++ "." ++ toString n
          · exact .inr ⟨n, by omega, hxn⟩
          · exact .inl ((List.mem_erase_of_ne hxn).mpr h)
        · exact .inr ⟨j, by omega, h⟩
    · rename_i htaken
      refine ⟨n, rfl, fun hmem => ?_⟩
      rcases hall _ hmem with h | ⟨j, hj, h⟩
      · exact htaken (List.contains_iff_mem.mpr h)
      · have := suffix_injective h
        omega

theorem freshFunctionName_not_mem (p : Program) (base : String) :
    p.freshFunctionName base ∉ p.takenNames := by
  unfold freshFunctionName
  dsimp only
  split
  · obtain ⟨j, hj, hfresh⟩ := freshName_fresh base _ 1 _ _ (Nat.le_refl _) fun x hx => .inl hx
    rwa [hj]
  · rename_i h
    exact fun hmem => h (List.contains_iff_mem.mpr hmem)

theorem isTaken_iff {name : String} : p.isTaken name = true ↔ name ∈ p.takenNames := by
  simp only [isTaken, takenNames, Bool.or_eq_true, findFunction?, findGlobal?, List.find?_isSome,
    beq_iff_eq, List.mem_append, List.mem_map]

theorem freshFunctionName_free (p : Program) (base : String) :
    p.isTaken (p.freshFunctionName base) = false :=
  Bool.eq_false_iff.mpr fun h => p.freshFunctionName_not_mem base (isTaken_iff.mp h)

theorem freshFunctionName_ne (p : Program) (base : String) {f : FuncId}
    (hf : (p.func f).erased = false) : (p.func f).name ≠ p.freshFunctionName base := by
  intro h
  apply freshFunctionName_not_mem p base
  rw [← h]
  exact List.mem_append_left _ (List.mem_map.mpr ⟨f, mem_liveFunctions.mpr hf, rfl⟩)

/-! ## 3. The program with a copy -/

section

variable (p) (source : FuncId) (constants : List (Nat × Value))

/-- How the names of a function read in the copy that is made next. -/
def copyRenaming : Renaming where
  source := source
  copy := ⟨p.functions.size⟩
  params := paramValues ⟨p.functions.size⟩ constants 0 0 (p.func source).params
  blocks := (p.func source).blocks
  firstBlock := p.blocks.size
  instrs := p.instrsOf source
  firstInstr := p.instrs.size

/-- The copy of a function. -/
def copyFunc : Func :=
  { p.func source with
    name := p.freshFunctionName (p.func source).name
    params := ((p.func source).params.zipIdx.filter fun (_, i) =>
      (givenFor? constants i).isNone).map (·.1)
    blocks := (p.func source).blocks.map (p.copyRenaming source constants).block }

/-- The copy of a block. -/
def copyBlock (b : BlockId) : Block where
  name := (p.block b).name
  parent := some ⟨p.functions.size⟩
  instrs := (p.block b).instrs.map fun i =>
    ((p.copyRenaming source constants).value (.instr i)).toInstr?.getD i

/-- The program with a copy at its end. -/
def withCopy : Program :=
  { p with
    functions := p.functions.push (p.copyFunc source constants)
    blocks := p.blocks ++ ((p.func source).blocks.map (p.copyBlock source constants)).toArray
    instrs := p.instrs ++ ((p.instrsOf source).map fun i =>
      (p.copyRenaming source constants).instr (p.instr i)).toArray }

end

variable {source copy : FuncId} {constants : List (Nat × Value)}

theorem specialise_ok : p.specialise source constants = .ok (q, copy) ↔
    (p.func source).erased = false ∧ (∀ c ∈ constants, c.1 < (p.func source).params.length) ∧
      q = p.withCopy source constants ∧ copy = ⟨p.functions.size⟩ := by
  unfold specialise
  dsimp only
  by_cases hlive : (p.func source).erased = true
  · simp [hlive]
  · simp only [Bool.not_eq_true] at hlive
    rw [if_neg (by simp [hlive])]
    split
    · rename_i index hmin
      have hmem := List.min?_mem hmin
      simp only [reduceCtorEq, false_iff]
      rintro ⟨-, hall, -⟩
      obtain ⟨hmem, hle⟩ := List.mem_filter.mp hmem
      obtain ⟨c, hc, rfl⟩ := List.mem_map.mp hmem
      have := hall c hc
      simp only [decide_eq_true_eq] at hle
      omega
    · rename_i hmin
      have hnone := List.min?_eq_none_iff.mp hmin
      have hall : ∀ c ∈ constants, c.1 < (p.func source).params.length := by
        intro c hc
        have := List.filter_eq_nil_iff.mp hnone c.1 (List.mem_map_of_mem hc)
        simpa using this
      rw [if_neg (by simp [freshFunctionName_free])]
      simp only [Except.ok.injEq, Prod.mk.injEq]
      constructor
      · rintro ⟨rfl, rfl⟩
        exact ⟨hlive, hall, rfl, rfl⟩
      · rintro ⟨-, -, rfl, rfl⟩
        exact ⟨rfl, rfl⟩

/-! ## 4. Nodes of the program with a copy -/

theorem func_withCopy (p : Program) (source : FuncId) (constants : List (Nat × Value))
    (f : FuncId) : (p.withCopy source constants).func f =
      if f.index = p.functions.size then p.copyFunc source constants else p.func f :=
  func_push p _ f

theorem block_withCopy_old (h : b.index < p.blocks.size) :
    (p.withCopy source constants).block b = p.block b := by
  simp [withCopy, block, h, Array.getElem?_append_left]

theorem instr_withCopy_old (h : i.index < p.instrs.size) :
    (p.withCopy source constants).instr i = p.instr i := by
  simp [withCopy, instr, h, Array.getElem?_append_left]

theorem block_withCopy_at (hk : k < (p.func source).blocks.length) :
    (p.withCopy source constants).block ⟨p.blocks.size + k⟩ =
      p.copyBlock source constants (p.func source).blocks[k] := by
  simp [withCopy, block, hk]

theorem instr_withCopy_at (hk : k < (p.instrsOf source).length) :
    (p.withCopy source constants).instr ⟨p.instrs.size + k⟩ =
      (p.copyRenaming source constants).instr (p.instr (p.instrsOf source)[k]) := by
  simp [withCopy, instr, hk]

theorem block_withCopy_cases (p : Program) (source : FuncId) (constants : List (Nat × Value))
    (b : BlockId) : b.index < p.blocks.size ∨
      (∃ k, k < (p.func source).blocks.length ∧ b = ⟨p.blocks.size + k⟩) ∨
      (p.withCopy source constants).block b = Block.tombstone := by
  by_cases hold : b.index < p.blocks.size
  · exact .inl hold
  by_cases hnew : b.index < p.blocks.size + (p.func source).blocks.length
  · refine .inr (.inl ⟨b.index - p.blocks.size, by omega, ?_⟩)
    cases b
    simp only [BlockId.mk.injEq] at hold ⊢
    omega
  · exact .inr (.inr (block_of_le (by simpa [withCopy] using hnew)))

theorem instr_withCopy_cases (p : Program) (source : FuncId) (constants : List (Nat × Value))
    (i : InstrId) : i.index < p.instrs.size ∨
      (∃ k, k < (p.instrsOf source).length ∧ i = ⟨p.instrs.size + k⟩) ∨
      (p.withCopy source constants).instr i = Instr.tombstone := by
  by_cases hold : i.index < p.instrs.size
  · exact .inl hold
  by_cases hnew : i.index < p.instrs.size + (p.instrsOf source).length
  · refine .inr (.inl ⟨i.index - p.instrs.size, by omega, ?_⟩)
    cases i
    simp only [InstrId.mk.injEq] at hold ⊢
    omega
  · exact .inr (.inr (instr_of_le (by simpa [withCopy] using hnew)))

namespace Sound

theorem nodup_instrsOf (h : p.Sound) (f : FuncId) : (p.instrsOf f).Nodup := by
  rw [instrsOf, List.nodup_flatMap]
  refine ⟨fun b _ => h.nodup_instrs b, (h.nodup_blocks f).imp ?_⟩
  intro b c hbc i hib hic
  rw [h.mem_instrs] at hib hic
  rw [hib] at hic
  exact hbc (Option.some.inj hic)

theorem mem_instrsOf (h : p.Sound) {f : FuncId} :
    i ∈ p.instrsOf f ↔ p.functionOf? i = some f := by
  simp only [instrsOf, List.mem_flatMap, functionOf?, Option.bind_eq_some_iff]
  constructor
  · rintro ⟨b, hb, hi⟩
    exact ⟨b, h.mem_instrs.mp hi, h.mem_blocks.mp hb⟩
  · rintro ⟨b, hi, hb⟩
    exact ⟨b, h.mem_blocks.mpr hb, h.mem_instrs.mpr hi⟩

theorem of_mem (hinstrs : ∀ b, (p.block b).instrs.Nodup)
    (hmem : ∀ b i, i ∈ (p.block b).instrs ↔ (p.instr i).parent = some b)
    (hblocks : ∀ f, (p.func f).blocks.Nodup)
    (hbmem : ∀ f b, b ∈ (p.func f).blocks ↔ (p.block b).parent = some f)
    (herasedInstr : ∀ i, (p.instr i).erased = true → (p.instr i).parent = none)
    (herasedBlock : ∀ b, (p.block b).erased = true →
      (p.block b).parent = none ∧ (p.block b).instrs = [])
    (hnames : ∀ f g, (p.func f).erased = false → (p.func g).erased = false →
      (p.func f).name = (p.func g).name → f = g) : p.Sound := by
  refine ⟨?_, ?_, herasedInstr, herasedBlock, index_iff.mpr hnames⟩
  · intro b i
    rw [(hinstrs b).count]
    simp only [hmem]
  · intro f b
    rw [(hblocks f).count]
    simp only [hbmem]

end Sound

/-! ## 5. Copies of sound programs -/

theorem copyBlock_instrs (p : Program) (source : FuncId) (constants : List (Nat × Value))
    (b : BlockId) : (p.copyBlock source constants b).instrs =
      (p.block b).instrs.map (p.copyRenaming source constants).instrId := by
  simp [copyBlock, Renaming.value_instr, Value.toInstr?]

section

variable (hp : p.Sound) (source : FuncId) (constants : List (Nat × Value))

include hp

theorem block_withCopy_new (hb : b ∈ (p.func source).blocks) :
    (p.withCopy source constants).block ((p.copyRenaming source constants).block b) =
      p.copyBlock source constants b := by
  obtain ⟨k, hk, rfl⟩ := List.getElem_of_mem hb
  have hnew : (p.copyRenaming source constants).block (p.func source).blocks[k] =
      ⟨p.blocks.size + k⟩ := Renaming.block_getElem (hp.nodup_blocks source) hk
  rw [hnew, block_withCopy_at hk]

theorem instr_withCopy_new (hi : i ∈ p.instrsOf source) :
    (p.withCopy source constants).instr ((p.copyRenaming source constants).instrId i) =
      (p.copyRenaming source constants).instr (p.instr i) := by
  obtain ⟨k, hk, rfl⟩ := List.getElem_of_mem hi
  have hnew : (p.copyRenaming source constants).instrId (p.instrsOf source)[k] =
      ⟨p.instrs.size + k⟩ := Renaming.instrId_getElem (hp.nodup_instrsOf source) hk
  rw [hnew, instr_withCopy_at hk]

theorem block_of_withCopy (b : BlockId) : b.index < p.blocks.size ∨
    (∃ c ∈ (p.func source).blocks, b = (p.copyRenaming source constants).block c) ∨
    (p.withCopy source constants).block b = Block.tombstone := by
  rcases block_withCopy_cases p source constants b with h | ⟨k, hk, rfl⟩ | h
  · exact .inl h
  · refine .inr (.inl ⟨(p.func source).blocks[k], List.getElem_mem hk, ?_⟩)
    exact (Renaming.block_getElem (r := p.copyRenaming source constants)
      (hp.nodup_blocks source) hk).symm
  · exact .inr (.inr h)

theorem instr_of_withCopy (i : InstrId) : i.index < p.instrs.size ∨
    (∃ j ∈ p.instrsOf source, i = (p.copyRenaming source constants).instrId j) ∨
    (p.withCopy source constants).instr i = Instr.tombstone := by
  rcases instr_withCopy_cases p source constants i with h | ⟨k, hk, rfl⟩ | h
  · exact .inl h
  · refine .inr (.inl ⟨(p.instrsOf source)[k], List.getElem_mem hk, ?_⟩)
    exact (Renaming.instrId_getElem (r := p.copyRenaming source constants)
      (hp.nodup_instrsOf source) hk).symm
  · exact .inr (.inr h)

theorem mem_copyBlock (hb : b ∈ (p.func source).blocks)
    (hi : i ∈ p.instrsOf source) :
    (p.copyRenaming source constants).instrId i ∈ (p.copyBlock source constants b).instrs ↔
      i ∈ (p.block b).instrs := by
  rw [copyBlock_instrs, List.mem_map]
  constructor
  · rintro ⟨j, hj, heq⟩
    have hjs : j ∈ p.instrsOf source := List.mem_flatMap.mpr ⟨b, hb, hj⟩
    rw [← Renaming.instrId_inj (r := p.copyRenaming source constants)
      (hp.nodup_instrsOf source) hjs hi heq]
    exact hj
  · intro hmem
    exact ⟨i, hmem, rfl⟩

theorem parent_copy (hb : b ∈ (p.func source).blocks)
    (hi : i ∈ p.instrsOf source) :
    ((p.copyRenaming source constants).instr (p.instr i)).parent =
      some ((p.copyRenaming source constants).block b) ↔ (p.instr i).parent = some b := by
  obtain ⟨c, hc, hic⟩ := List.mem_flatMap.mp hi
  have hparent := hp.mem_instrs.mp hic
  simp only [Renaming.instr, hparent, Option.map_some, Option.some.injEq]
  constructor
  · exact Renaming.block_inj (r := p.copyRenaming source constants) (hp.nodup_blocks source) hc hb
  · rintro rfl
    rfl

theorem mem_instrs_withCopy (b : BlockId) (i : InstrId) :
    i ∈ ((p.withCopy source constants).block b).instrs ↔
      ((p.withCopy source constants).instr i).parent = some b := by
  rcases block_of_withCopy hp source constants b with hb | ⟨c, hc, rfl⟩ | hb
  · rw [block_withCopy_old hb]
    rcases instr_of_withCopy hp source constants i with hi | ⟨j, hj, rfl⟩ | hi
    · rw [instr_withCopy_old hi]
      exact hp.mem_instrs
    · -- The copy of an instruction stands in no old block.
      have hle := Renaming.le_instrId (r := p.copyRenaming source constants)
        (hp.nodup_instrsOf source) hj
      rw [instr_withCopy_new hp source constants hj]
      constructor
      · intro hmem
        have hlt := instr_lt_of_parent (hp.mem_instrs.mp hmem)
        exact absurd hlt (Nat.not_lt.mpr hle)
      · intro hparent
        obtain ⟨c, hc, hjc⟩ := List.mem_flatMap.mp hj
        simp only [Renaming.instr, hp.mem_instrs.mp hjc, Option.map_some, Option.some.injEq]
          at hparent
        have hle := Renaming.le_block (r := p.copyRenaming source constants)
          (hp.nodup_blocks source) hc
        rw [hparent] at hle
        exact absurd hb (Nat.not_lt.mpr hle)
    · rw [hi]
      constructor
      · intro hmem
        have hparent := hp.mem_instrs.mp hmem
        rw [instr_withCopy_old (instr_lt_of_parent hparent)] at hi
        rw [hi] at hparent
        exact hparent
      · intro h
        cases h
  · have hle := Renaming.le_block (r := p.copyRenaming source constants)
      (hp.nodup_blocks source) hc
    rw [block_withCopy_new hp source constants hc]
    rcases instr_of_withCopy hp source constants i with hi | ⟨j, hj, rfl⟩ | hi
    · -- An old instruction stands in no copy of a block.
      rw [instr_withCopy_old hi, copyBlock_instrs]
      constructor
      · intro hmem
        obtain ⟨j, hj, rfl⟩ := List.mem_map.mp hmem
        have hjs : j ∈ p.instrsOf source := List.mem_flatMap.mpr ⟨c, hc, hj⟩
        have := Renaming.le_instrId (r := p.copyRenaming source constants)
          (hp.nodup_instrsOf source) hjs
        exact absurd hi (Nat.not_lt.mpr this)
      · intro hparent
        have := block_lt_of_mem (hp.mem_instrs.mpr hparent)
        exact absurd this (Nat.not_lt.mpr hle)
    · rw [mem_copyBlock hp source constants hc hj, instr_withCopy_new hp source constants hj,
        parent_copy hp source constants hc hj]
      exact hp.mem_instrs
    · rw [copyBlock_instrs]
      constructor
      · intro hmem
        obtain ⟨j, hj, rfl⟩ := List.mem_map.mp hmem
        have hjs : j ∈ p.instrsOf source := List.mem_flatMap.mpr ⟨c, hc, hj⟩
        rw [instr_withCopy_new hp source constants hjs,
          (parent_copy hp source constants hc hjs).mpr (hp.mem_instrs.mp hj)]
      · intro h
        rw [hi] at h
        cases h
  · rw [hb]
    constructor
    · intro h
      cases h
    · intro hparent
      rcases instr_of_withCopy hp source constants i with hi | ⟨j, hj, rfl⟩ | hi
      · rw [instr_withCopy_old hi] at hparent
        have hmem := hp.mem_instrs.mpr hparent
        rw [block_withCopy_old (block_lt_of_mem hmem)] at hb
        rw [hb] at hmem
        exact hmem
      · obtain ⟨c, hc, hjc⟩ := List.mem_flatMap.mp hj
        rw [instr_withCopy_new hp source constants hj,
          (parent_copy hp source constants hc hj).mpr (hp.mem_instrs.mp hjc)] at hparent
        cases hparent
        rw [block_withCopy_new hp source constants hc] at hb
        cases congrArg Block.parent hb
      · rw [hi] at hparent
        cases hparent

theorem nodup_instrs_withCopy (b : BlockId) :
    ((p.withCopy source constants).block b).instrs.Nodup := by
  rcases block_of_withCopy hp source constants b with hb | ⟨c, hc, rfl⟩ | hb
  · rw [block_withCopy_old hb]
    exact hp.nodup_instrs b
  · rw [block_withCopy_new hp source constants hc, copyBlock_instrs]
    refine (hp.nodup_instrs c).map_on ?_
    intro i hi j hj heq
    exact Renaming.instrId_inj (r := p.copyRenaming source constants) (hp.nodup_instrsOf source)
      (List.mem_flatMap.mpr ⟨c, hc, hi⟩) (List.mem_flatMap.mpr ⟨c, hc, hj⟩) heq
  · rw [hb]
    exact List.nodup_nil

theorem mem_blocks_withCopy (f : FuncId) (b : BlockId) :
    b ∈ ((p.withCopy source constants).func f).blocks ↔
      ((p.withCopy source constants).block b).parent = some f := by
  rw [func_withCopy]
  by_cases hf : f.index = p.functions.size
  · obtain rfl : f = ⟨p.functions.size⟩ := by
      cases f
      exact congrArg FuncId.mk hf
    rw [if_pos rfl]
    simp only [copyFunc, List.mem_map]
    constructor
    · rintro ⟨c, hc, rfl⟩
      rw [block_withCopy_new hp source constants hc]
      rfl
    · intro hparent
      rcases block_of_withCopy hp source constants b with hb | ⟨c, hc, rfl⟩ | hb
      · rw [block_withCopy_old hb] at hparent
        have hlt := func_lt_of_mem (hp.mem_blocks.mpr hparent)
        exact absurd hlt (Nat.lt_irrefl _)
      · exact ⟨c, hc, rfl⟩
      · rw [hb] at hparent
        cases hparent
  · rw [if_neg hf]
    rcases block_of_withCopy hp source constants b with hb | ⟨c, hc, rfl⟩ | hb
    · rw [block_withCopy_old hb]
      exact hp.mem_blocks
    · rw [block_withCopy_new hp source constants hc]
      constructor
      · intro hmem
        have hlt := block_lt_of_parent (hp.mem_blocks.mp hmem)
        have hle := Renaming.le_block (r := p.copyRenaming source constants)
          (hp.nodup_blocks source) hc
        exact absurd hlt (Nat.not_lt.mpr hle)
      · intro hparent
        cases hparent
        exact absurd rfl hf
    · rw [hb]
      constructor
      · intro hmem
        have hparent := hp.mem_blocks.mp hmem
        rw [block_withCopy_old (block_lt_of_parent hparent)] at hb
        rw [hb] at hparent
        exact hparent
      · intro h
        cases h

theorem nodup_blocks_withCopy (f : FuncId) :
    ((p.withCopy source constants).func f).blocks.Nodup := by
  rw [func_withCopy]
  split
  · refine (hp.nodup_blocks source).map_on ?_
    intro b hb c hc heq
    exact Renaming.block_inj (r := p.copyRenaming source constants) (hp.nodup_blocks source)
      hb hc heq
  · exact hp.nodup_blocks f

end

theorem evolves_withCopy (p : Program) (source : FuncId) (constants : List (Nat × Value)) :
    p.Evolves (p.withCopy source constants) := by
  intro hp
  constructor
  · apply Sound.of_mem (nodup_instrs_withCopy hp source constants)
      (mem_instrs_withCopy hp source constants) (nodup_blocks_withCopy hp source constants)
      (mem_blocks_withCopy hp source constants)
    · intro i
      rcases instr_of_withCopy hp source constants i with hi | ⟨j, hj, rfl⟩ | hi
      · rw [instr_withCopy_old hi]
        exact hp.erasedInstr i
      · rw [instr_withCopy_new hp source constants hj]
        intro herased
        obtain ⟨c, -, hjc⟩ := List.mem_flatMap.mp hj
        have hlive := hp.instr_live hjc
        rw [show (p.instr j).erased = true from herased] at hlive
        cases hlive
      · rw [hi]
        exact fun _ => rfl
    · intro b
      rcases block_of_withCopy hp source constants b with hb | ⟨c, hc, rfl⟩ | hb
      · rw [block_withCopy_old hb]
        exact hp.erasedBlock b
      · rw [block_withCopy_new hp source constants hc]
        intro herased
        cases herased
      · rw [hb]
        exact fun _ => ⟨rfl, rfl⟩
    · -- The name of the copy is fresh.
      intro f g
      rw [func_withCopy, func_withCopy]
      split
      · split
        · rename_i hf hg
          intro _ _ _
          cases f
          cases g
          exact congrArg FuncId.mk (hf.trans hg.symm)
        · intro _ hg hname
          exact absurd hname.symm (freshFunctionName_ne p _ hg)
      · split
        · intro hf _ hname
          exact absurd hname (freshFunctionName_ne p _ hf)
        · exact hp.names
  · refine ⟨by simp [withCopy], by simp [withCopy], by simp [withCopy], ?_, ?_, ?_⟩
    · intro f hf h
      rw [func_withCopy, if_neg (by omega)]
      exact h
    · intro b hb h
      rw [block_withCopy_old hb]
      exact h
    · intro i hi h
      rw [instr_withCopy_old hi]
      exact h

/-- Making a copy keeps a program sound. -/
theorem evolves_specialise (h : p.specialise source constants = .ok (q, copy)) : p.Evolves q := by
  obtain ⟨-, -, rfl, -⟩ := specialise_ok.mp h
  exact evolves_withCopy p source constants

end Program

end QirProfile
