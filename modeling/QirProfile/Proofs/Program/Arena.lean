import QirProfile.Program.Builder
import QirProfile.Proofs.Program.Nodes
import QirProfile.Proofs.Steps

/-!
# Who stands where

A program says four times who stands where: nodes name their parents, parents list their children,
tombstones are marked, and functions are found by name. `Sound p` says that the four agree.

Edits are put together from a few changes of this frame; everything else (`SameFrame`) leaves it
alone. `Evolves p q` says what any edit keeps: a sound program stays sound, and a tombstone stays one.
-/

namespace QirProfile.Program

variable {p q r : Program}
variable {f : FuncId} {b : BlockId} {i id : InstrId} {u : Unit}

/-! ## 1. Sound programs -/

/-- The four views of who stands where agree. -/
structure Sound (p : Program) : Prop where
  /-- An instruction is listed once by its parent, and by no other block. -/
  instrs : ∀ b i, (p.block b).instrs.count i = if (p.instr i).parent = some b then 1 else 0
  /-- A block is listed once by its parent, and by no other function. -/
  blocks : ∀ f b, (p.func f).blocks.count b = if (p.block b).parent = some f then 1 else 0
  /-- An erased instruction is detached. -/
  erasedInstr : ∀ i, (p.instr i).erased = true → (p.instr i).parent = none
  /-- An erased block is detached and empty. -/
  erasedBlock : ∀ b, (p.block b).erased = true →
    (p.block b).parent = none ∧ (p.block b).instrs = []
  /-- The live functions, and no others, are found by their names. -/
  index : ∀ name f, p.findFunction? name = some f ↔
    (p.func f).erased = false ∧ (p.func f).name = name

theorem findFunction?_some {name : String} (h : p.findFunction? name = some f) :
    (p.func f).erased = false ∧ (p.func f).name = name := by
  have hmem := List.mem_of_find?_eq_some h
  have hname := List.find?_some h
  exact ⟨mem_liveFunctions.mp hmem, by simpa using hname⟩

theorem findFunction?_none {name : String} (h : p.findFunction? name = none)
    (hf : (p.func f).erased = false) : (p.func f).name ≠ name := by
  have := List.find?_eq_none.mp h f (mem_liveFunctions.mpr hf)
  simpa using this

theorem index_iff : (∀ name f, p.findFunction? name = some f ↔
      (p.func f).erased = false ∧ (p.func f).name = name) ↔
    ∀ f g, (p.func f).erased = false → (p.func g).erased = false →
      (p.func f).name = (p.func g).name → f = g := by
  constructor
  · intro h f g hf hg hname
    have h₁ := (h (p.func g).name f).mpr ⟨hf, hname⟩
    have h₂ := (h (p.func g).name g).mpr ⟨hg, rfl⟩
    rw [h₁] at h₂
    exact Option.some.inj h₂
  · intro h name f
    constructor
    · exact findFunction?_some
    · rintro ⟨hf, hname⟩
      cases hfind : p.findFunction? name with
      | none => exact absurd hname (findFunction?_none hfind hf)
      | some g =>
        obtain ⟨hg, hgname⟩ := findFunction?_some hfind
        rw [h g f hg hf (hgname.trans hname.symm)]

namespace Sound

theorem mem_instrs (h : p.Sound) :
    i ∈ (p.block b).instrs ↔ (p.instr i).parent = some b := by
  rw [← List.count_pos_iff, h.instrs b i]
  split <;> simp [*]

theorem mem_blocks (h : p.Sound) :
    b ∈ (p.func f).blocks ↔ (p.block b).parent = some f := by
  rw [← List.count_pos_iff, h.blocks f b]
  split <;> simp [*]

theorem functionOf_of_mem (h : p.Sound)
    (hb : b ∈ (p.func f).blocks) (hi : i ∈ (p.block b).instrs) : p.functionOf? i = some f :=
  Option.bind_eq_some_iff.mpr ⟨b, h.mem_instrs.mp hi, h.mem_blocks.mp hb⟩

theorem nodup_instrs (h : p.Sound) (b : BlockId) : (p.block b).instrs.Nodup := by
  rw [List.nodup_iff_count_le_one]
  intro i
  rw [h.instrs b i]
  split <;> omega

theorem nodup_blocks (h : p.Sound) (f : FuncId) : (p.func f).blocks.Nodup := by
  rw [List.nodup_iff_count_le_one]
  intro b
  rw [h.blocks f b]
  split <;> omega

theorem names (h : p.Sound) {g : FuncId} (hf : (p.func f).erased = false)
    (hg : (p.func g).erased = false) (hname : (p.func f).name = (p.func g).name) : f = g :=
  index_iff.mp h.index f g hf hg hname

theorem instr_live (h : p.Sound) (hi : i ∈ (p.block b).instrs) :
    (p.instr i).erased = false := by
  rw [h.mem_instrs] at hi
  cases herased : (p.instr i).erased with
  | false => rfl
  | true =>
    rw [h.erasedInstr i herased] at hi
    cases hi

theorem block_live (h : p.Sound) (hi : i ∈ (p.block b).instrs) :
    (p.block b).erased = false := by
  cases herased : (p.block b).erased with
  | false => rfl
  | true =>
    rw [(h.erasedBlock b herased).2] at hi
    cases hi

theorem block_live_of_listed (h : p.Sound)
    (hb : b ∈ (p.func f).blocks) : (p.block b).erased = false := by
  rw [h.mem_blocks] at hb
  cases herased : (p.block b).erased with
  | false => rfl
  | true =>
    rw [(h.erasedBlock b herased).1] at hb
    cases hb

end Sound

/-! ## 2. What every edit keeps -/

/-- Numbers are not used again, and what is erased stays erased. -/
structure Buries (p q : Program) : Prop where
  functions : p.functions.size ≤ q.functions.size
  blocks : p.blocks.size ≤ q.blocks.size
  instrs : p.instrs.size ≤ q.instrs.size
  erasedFunc : ∀ f : FuncId, f.index < p.functions.size → (p.func f).erased = true →
    (q.func f).erased = true
  erasedBlock : ∀ b : BlockId, b.index < p.blocks.size → (p.block b).erased = true →
    (q.block b).erased = true
  erasedInstr : ∀ i : InstrId, i.index < p.instrs.size → (p.instr i).erased = true →
    (q.instr i).erased = true

theorem Buries.refl (p : Program) : p.Buries p :=
  ⟨Nat.le_refl _, Nat.le_refl _, Nat.le_refl _, fun _ _ h => h, fun _ _ h => h, fun _ _ h => h⟩

theorem Buries.trans (h₁ : p.Buries q) (h₂ : q.Buries r) : p.Buries r where
  functions := Nat.le_trans h₁.functions h₂.functions
  blocks := Nat.le_trans h₁.blocks h₂.blocks
  instrs := Nat.le_trans h₁.instrs h₂.instrs
  erasedFunc f hf h := h₂.erasedFunc f (Nat.lt_of_lt_of_le hf h₁.functions) (h₁.erasedFunc f hf h)
  erasedBlock b hb h := h₂.erasedBlock b (Nat.lt_of_lt_of_le hb h₁.blocks) (h₁.erasedBlock b hb h)
  erasedInstr i hi h := h₂.erasedInstr i (Nat.lt_of_lt_of_le hi h₁.instrs) (h₁.erasedInstr i hi h)

/-- What every edit keeps: sound programs stay sound, and tombstones stay tombstones. -/
def Evolves (p q : Program) : Prop :=
  p.Sound → q.Sound ∧ p.Buries q

theorem Evolves.refl (p : Program) : p.Evolves p :=
  fun h => ⟨h, .refl p⟩

theorem Evolves.trans (h₁ : p.Evolves q) (h₂ : q.Evolves r) : p.Evolves r := by
  intro hp
  obtain ⟨hq, hpq⟩ := h₁ hp
  obtain ⟨hr, hqr⟩ := h₂ hq
  exact ⟨hr, hpq.trans hqr⟩

/-! ## 3. Changes that leave the frame alone -/

/-- The same nodes stand in the same places under the same names. -/
structure SameFrame (p q : Program) : Prop where
  functions : q.functions.size = p.functions.size
  blocks : q.blocks.size = p.blocks.size
  instrs : q.instrs.size = p.instrs.size
  func : ∀ f, (q.func f).blocks = (p.func f).blocks ∧ (q.func f).erased = (p.func f).erased ∧
    (q.func f).name = (p.func f).name
  block : ∀ b, (q.block b).parent = (p.block b).parent ∧ (q.block b).instrs = (p.block b).instrs ∧
    (q.block b).erased = (p.block b).erased
  instr : ∀ i, (q.instr i).parent = (p.instr i).parent ∧ (q.instr i).erased = (p.instr i).erased

theorem SameFrame.refl (p : Program) : p.SameFrame p :=
  ⟨rfl, rfl, rfl, fun _ => ⟨rfl, rfl, rfl⟩, fun _ => ⟨rfl, rfl, rfl⟩, fun _ => ⟨rfl, rfl⟩⟩

theorem SameFrame.trans (h₁ : p.SameFrame q) (h₂ : q.SameFrame r) : p.SameFrame r where
  functions := h₂.functions.trans h₁.functions
  blocks := h₂.blocks.trans h₁.blocks
  instrs := h₂.instrs.trans h₁.instrs
  func f := ⟨(h₂.func f).1.trans (h₁.func f).1, (h₂.func f).2.1.trans (h₁.func f).2.1,
    (h₂.func f).2.2.trans (h₁.func f).2.2⟩
  block b := ⟨(h₂.block b).1.trans (h₁.block b).1, (h₂.block b).2.1.trans (h₁.block b).2.1,
    (h₂.block b).2.2.trans (h₁.block b).2.2⟩
  instr i := ⟨(h₂.instr i).1.trans (h₁.instr i).1, (h₂.instr i).2.trans (h₁.instr i).2⟩

theorem SameFrame.evolves (h : p.SameFrame q) : p.Evolves q := by
  intro hp
  constructor
  · constructor
    · intro b i
      rw [(h.block b).2.1, (h.instr i).1]
      exact hp.instrs b i
    · intro f b
      rw [(h.func f).1, (h.block b).1]
      exact hp.blocks f b
    · intro i hi
      rw [(h.instr i).1]
      exact hp.erasedInstr i ((h.instr i).2 ▸ hi)
    · intro b hb
      rw [(h.block b).1, (h.block b).2.1]
      exact hp.erasedBlock b ((h.block b).2.2 ▸ hb)
    · rw [index_iff]
      intro f g
      rw [(h.func f).2.1, (h.func f).2.2, (h.func g).2.1, (h.func g).2.2]
      exact hp.names
  · refine ⟨Nat.le_of_eq h.functions.symm, Nat.le_of_eq h.blocks.symm, Nat.le_of_eq h.instrs.symm,
      ?_, ?_, ?_⟩
    · intro f _ hf
      rw [(h.func f).2.1]
      exact hf
    · intro b _ hb
      rw [(h.block b).2.2]
      exact hb
    · intro i _ hi
      rw [(h.instr i).2]
      exact hi

theorem sameFrame_updateInstr {g : Instr → Instr}
    (hg : ∀ i, (g i).parent = i.parent ∧ (g i).erased = i.erased) (p : Program) (id : InstrId) :
    p.SameFrame (p.updateInstr id g) := by
  refine ⟨rfl, rfl, by simp [updateInstr], fun _ => ⟨rfl, rfl, rfl⟩, fun _ => ⟨rfl, rfl, rfl⟩, ?_⟩
  intro i
  rw [instr_updateInstr]
  split
  · exact hg _
  · exact ⟨rfl, rfl⟩

theorem sameFrame_setInstrName (p : Program) (id : InstrId) (name : Option String) :
    p.SameFrame (p.setInstrName id name) :=
  sameFrame_updateInstr (g := ({ · with name := name })) (fun _ => ⟨rfl, rfl⟩) p id

theorem sameFrame_takeName (p : Program) (source target : InstrId) :
    p.SameFrame (p.takeName source target) :=
  (sameFrame_setInstrName p source none).trans (sameFrame_setInstrName _ target _)

theorem sameFrame_replaceUses (p : Program) (old new : Value) :
    p.SameFrame (p.replaceUses old new) := by
  refine ⟨rfl, rfl, by simp [replaceUses], fun _ => ⟨rfl, rfl, rfl⟩, fun _ => ⟨rfl, rfl, rfl⟩, ?_⟩
  intro i
  rw [instr_replaceUses]
  split <;> exact ⟨rfl, rfl⟩

/-! ## 4. New nodes -/

theorem evolves_pushFunction {fn : Func} (hblocks : fn.blocks = [])
    (hname : ∀ f, (p.func f).erased = false → (p.func f).name ≠ fn.name) :
    p.Evolves (p.pushFunction fn).1 := by
  have hfunc : ∀ f : FuncId, f.index ≠ p.functions.size →
      (p.pushFunction fn).1.func f = p.func f := by
    intro f hf
    rw [pushFunction, func_push, if_neg hf]
  have hnew : ∀ f : FuncId, f.index = p.functions.size →
      (p.pushFunction fn).1.func f = fn := by
    intro f hf
    rw [pushFunction, func_push, if_pos hf]
  intro hp
  constructor
  · refine ⟨hp.instrs, ?_, hp.erasedInstr, hp.erasedBlock, ?_⟩
    · intro f b
      change _ = if (p.block b).parent = some f then 1 else 0
      rw [← hp.blocks f b]
      by_cases hf : f.index = p.functions.size
      · rw [hnew f hf, hblocks, func_of_le (Nat.le_of_eq hf.symm)]
        rfl
      · rw [hfunc f hf]
    · rw [index_iff]
      intro f g hf hg hfg
      by_cases hfn : f.index = p.functions.size
      · by_cases hgn : g.index = p.functions.size
        · cases f
          cases g
          exact congrArg FuncId.mk (hfn.trans hgn.symm)
        · rw [hnew f hfn, hfunc g hgn] at hfg
          rw [hfunc g hgn] at hg
          exact absurd hfg.symm (hname g hg)
      · rw [hfunc f hfn] at hf hfg
        by_cases hgn : g.index = p.functions.size
        · rw [hnew g hgn] at hfg
          exact absurd hfg (hname f hf)
        · rw [hfunc g hgn] at hg hfg
          exact hp.names hf hg hfg
  · refine ⟨by simp [pushFunction], Nat.le_refl _, Nat.le_refl _, ?_, fun _ _ h => h,
      fun _ _ h => h⟩
    intro f hf h
    rw [hfunc f (by omega)]
    exact h

theorem evolves_createInstr (p : Program) (kind : InstrKind) (ty : Ty) (operands : List Value) :
    p.Evolves (p.createInstr kind ty operands).1 := by
  have hparent : ∀ i, ((p.createInstr kind ty operands).1.instr i).parent = (p.instr i).parent := by
    intro i
    rw [createInstr, instr_push]
    split
    · rename_i hi
      rw [instr_of_le (Nat.le_of_eq hi.symm)]
      rfl
    · rfl
  intro hp
  constructor
  · refine ⟨?_, hp.blocks, ?_, hp.erasedBlock, hp.index⟩
    · intro b i
      rw [hparent]
      exact hp.instrs b i
    · intro i hi
      rw [hparent]
      apply hp.erasedInstr
      rw [createInstr, instr_push] at hi
      split at hi
      · cases hi
      · exact hi
  · refine ⟨Nat.le_refl _, Nat.le_refl _, by simp [createInstr], fun _ _ h => h, fun _ _ h => h, ?_⟩
    intro i hi h
    rw [createInstr, instr_push, if_neg (by omega)]
    exact h

theorem evolves_appendBlock (hf : f.index < p.functions.size)
    (name : Option String) : p.Evolves (p.appendBlock f name).1 := by
  have hfunc : ∀ g, (p.appendBlock f name).1.func g =
      if f = g then { p.func g with blocks := (p.func g).blocks ++ [⟨p.blocks.size⟩] }
      else p.func g := by
    intro g
    rw [appendBlock, func_updateFunc]
    by_cases hfg : f = g
    · subst hfg
      simp only [true_and, if_pos hf, if_true]
      rfl
    · simp only [hfg, false_and, if_false]
      rfl
  have hblock : ∀ b, (p.appendBlock f name).1.block b =
      if b.index = p.blocks.size then { name := name, parent := some f } else p.block b :=
    fun b => block_push p _ b
  intro hp
  constructor
  · refine ⟨?_, ?_, hp.erasedInstr, ?_, ?_⟩
    · intro b i
      rw [hblock, show (p.appendBlock f name).1.instr i = p.instr i from rfl, ← hp.instrs b i]
      split
      · rename_i hb
        rw [block_of_le (Nat.le_of_eq hb.symm)]
        rfl
      · rfl
    · intro g b
      have hcount : ((p.appendBlock f name).1.func g).blocks.count b =
          (p.func g).blocks.count b + if f = g ∧ b.index = p.blocks.size then 1 else 0 := by
        rw [hfunc]
        by_cases hfg : f = g
        · rw [if_pos hfg]
          cases b with
          | mk n =>
            by_cases hn : n = p.blocks.size
            · simp [hfg, hn]
            · simp [hfg, hn, Ne.symm hn]
        · simp [hfg]
      rw [hcount, hp.blocks g b, hblock]
      by_cases hb : b.index = p.blocks.size
      · rw [block_of_le (Nat.le_of_eq hb.symm), if_pos hb]
        by_cases hfg : f = g <;> simp [hfg, hb, Block.tombstone]
      · rw [if_neg hb]
        simp [hb]
    · intro b
      rw [hblock]
      split
      · intro hb
        cases hb
      · exact hp.erasedBlock b
    · rw [index_iff]
      intro g h
      rw [hfunc, hfunc]
      have hg : ∀ g : FuncId, (if f = g then
          { p.func g with blocks := (p.func g).blocks ++ [⟨p.blocks.size⟩] }
          else p.func g).erased = (p.func g).erased ∧
          (if f = g then { p.func g with blocks := (p.func g).blocks ++ [⟨p.blocks.size⟩] }
          else p.func g).name = (p.func g).name := by
        intro g
        split <;> exact ⟨rfl, rfl⟩
      rw [(hg g).1, (hg g).2, (hg h).1, (hg h).2]
      exact hp.names
  · refine ⟨by simp [appendBlock, updateFunc], by simp [appendBlock, updateFunc], Nat.le_refl _,
      ?_, ?_, fun _ _ h => h⟩
    · intro g _ hg
      rw [hfunc]
      split <;> exact hg
    · intro b hb h
      rw [hblock, if_neg (by omega)]
      exact h

/-! ## 5. Instructions put into blocks and taken out -/

theorem attempt_ok {f : Program → Except ProgramError Program} :
    Edit.attempt f p = .ok u q ↔ f p = .ok q := by
  unfold Edit.attempt
  cases f p <;> simp

theorem requireLive_ok :
    p.requireLive id = .ok u ↔ (p.instr id).erased = false := by
  unfold requireLive
  split <;> simp_all

theorem requireDetached_ok :
    p.requireDetached id = .ok u ↔ (p.instr id).erased = false ∧ (p.instr id).parent = none := by
  unfold requireDetached
  rw [except_bind_ok]
  simp only [requireLive_ok, exists_const]
  cases (p.instr id).parent <;> simp

/-- A program in which a block lists an instruction more. -/
def attach (p : Program) (b : BlockId) (id : InstrId) (list : List InstrId → List InstrId) :
    Program :=
  (p.updateBlock b fun bb => { bb with instrs := list bb.instrs }).updateInstr id
    ({ · with parent := some b })

theorem evolves_attach {list : List InstrId → List InstrId}
    (hid : (p.instr id).erased = false) (hdetached : (p.instr id).parent = none)
    (hb : (p.block b).erased = false)
    (hlist : ∀ i, (list (p.block b).instrs).count i =
      (p.block b).instrs.count i + if i = id then 1 else 0) :
    p.Evolves (p.attach b id list) := by
  have hblt := block_lt_of_live hb
  have hilt := instr_lt_of_live hid
  have hself : (p.attach b id list).block b = { p.block b with instrs := list (p.block b).instrs } :=
    block_updateBlock_self hblt _
  have hother : ∀ c, b ≠ c → (p.attach b id list).block c = p.block c :=
    fun c hc => block_updateBlock_ne hc _
  have hinstr : (p.attach b id list).instr id = { p.instr id with parent := some b } :=
    instr_updateInstr_self hilt _
  have hothers : ∀ i, id ≠ i → (p.attach b id list).instr i = p.instr i :=
    fun i hi => instr_updateInstr_ne hi _
  intro hp
  constructor
  · refine ⟨?_, ?_, ?_, ?_, hp.index⟩
    · intro c i
      by_cases hc : b = c
      · subst hc
        rw [hself, hlist, hp.instrs b i]
        by_cases hi : id = i
        · subst hi
          rw [hinstr]
          simp [hdetached]
        · rw [hothers i hi, if_neg (Ne.symm hi)]
          rfl
      · rw [hother c hc, hp.instrs c i]
        by_cases hi : id = i
        · subst hi
          rw [hinstr]
          simp [hdetached, hc]
        · rw [hothers i hi]
    · intro f c
      have hparent : ((p.attach b id list).block c).parent = (p.block c).parent := by
        by_cases hc : b = c
        · subst hc
          rw [hself]
        · rw [hother c hc]
      rw [hparent]
      exact hp.blocks f c
    · intro i
      by_cases hi : id = i
      · subst hi
        rw [hinstr]
        simp [hid]
      · rw [hothers i hi]
        exact hp.erasedInstr i
    · intro c
      by_cases hc : b = c
      · subst hc
        rw [hself]
        simp [hb]
      · rw [hother c hc]
        exact hp.erasedBlock c
  · refine ⟨Nat.le_refl _, by simp [attach, updateBlock, updateInstr],
      by simp [attach, updateBlock, updateInstr], fun _ _ h => h, ?_, ?_⟩
    · intro c _ h
      by_cases hc : b = c
      · subst hc
        rw [hself]
        exact h
      · rw [hother c hc]
        exact h
    · intro i _ h
      by_cases hi : id = i
      · subst hi
        rw [hinstr]
        exact h
      · rw [hothers i hi]
        exact h

theorem appendInstr_ok :
    p.appendInstr b id = .ok q ↔ ((p.instr id).erased = false ∧ (p.instr id).parent = none) ∧
      (p.block b).erased = false ∧ q = p.attach b id (· ++ [id]) := by
  unfold appendInstr
  rw [except_bind_ok]
  simp only [requireDetached_ok, exists_const]
  cases (p.block b).erased with
  | true => simp
  | false =>
    simp only [Bool.false_eq_true, if_false, Except.ok.injEq, true_and]
    exact and_congr_right fun _ => eq_comm

theorem evolves_appendInstr (h : p.appendInstr b id = .ok q) :
    p.Evolves q := by
  obtain ⟨⟨hlive, hdetached⟩, hb, rfl⟩ := appendInstr_ok.mp h
  apply evolves_attach hlive hdetached hb
  intro i
  rw [List.count_append, List.count_singleton]
  by_cases hi : i = id
  · simp [hi]
  · simp [hi, Ne.symm hi]

theorem positionOf_ok {n : Nat} :
    p.positionOf id = .ok (b, n) ↔ (p.instr id).erased = false ∧ (p.instr id).parent = some b ∧
      (p.block b).instrs.idxOf? id = some n := by
  unfold positionOf
  rw [except_bind_ok]
  simp only [requireLive_ok, exists_const]
  refine and_congr_right fun _ => ?_
  cases hparent : (p.instr id).parent with
  | none => simp
  | some c =>
    simp only [Option.some.injEq]
    cases hidx : (p.block c).instrs.idxOf? id with
    | none =>
      constructor
      · intro h
        cases h
      · rintro ⟨rfl, hn⟩
        rw [hidx] at hn
        cases hn
    | some m =>
      constructor
      · intro h
        cases h
        exact ⟨rfl, hidx⟩
      · rintro ⟨rfl, hn⟩
        rw [hidx] at hn
        cases hn
        rfl

theorem insertBeside_ok {anchor : InstrId} {offset : Nat} :
    p.insertBeside anchor id offset = .ok q ↔
      ((p.instr id).erased = false ∧ (p.instr id).parent = none) ∧
      ∃ b n, p.positionOf anchor = .ok (b, n) ∧ q = p.attach b id (·.insertIdx (n + offset) id) := by
  unfold insertBeside
  rw [except_bind_ok]
  simp only [requireDetached_ok, exists_const]
  refine and_congr_right fun _ => ?_
  rw [except_bind_ok]
  constructor
  · rintro ⟨⟨b, n⟩, hpos, h⟩
    cases h
    exact ⟨b, n, hpos, rfl⟩
  · rintro ⟨b, n, hpos, rfl⟩
    exact ⟨(b, n), hpos, rfl⟩

theorem evolves_insertBeside {anchor : InstrId} {offset : Nat} (hoffset : offset ≤ 1)
    (h : p.insertBeside anchor id offset = .ok q) : p.Evolves q := by
  intro hp
  obtain ⟨⟨hlive, hdetached⟩, b, n, hpos, rfl⟩ := insertBeside_ok.mp h
  obtain ⟨-, hparent, hidx⟩ := positionOf_ok.mp hpos
  have hb : (p.block b).erased = false := hp.block_live (hp.mem_instrs.mpr hparent)
  have hn : n < (p.block b).instrs.length := by
    rw [List.idxOf?_eq_some_iff] at hidx
    exact hidx.choose
  refine evolves_attach hlive hdetached hb ?_ hp
  intro i
  have hperm := List.perm_insertIdx id (p.block b).instrs (i := n + offset) (by omega)
  rw [hperm.count_eq, List.count_cons]
  by_cases hi : i = id
  · simp [hi]
  · simp [hi, Ne.symm hi]

/-- A program without an instruction: its block does not list it, and it is marked erased. -/
def dropInstr (p : Program) (id : InstrId) : Program :=
  (match (p.instr id).parent with
    | some b => p.updateBlock b fun bb => { bb with instrs := bb.instrs.filter (· != id) }
    | none => p).updateInstr id ({ · with parent := none, erased := true, name := none })

theorem eraseInstr_ok :
    p.eraseInstr id = .ok q ↔ (p.instr id).erased = false ∧ q = p.dropInstr id := by
  unfold eraseInstr
  rw [except_bind_ok]
  simp only [requireLive_ok, exists_const, Except.ok.injEq]
  exact and_congr_right fun _ => eq_comm

theorem instr_dropInstr_self (h : id.index < p.instrs.size) :
    (p.dropInstr id).instr id =
      { p.instr id with parent := none, erased := true, name := none } := by
  unfold dropInstr
  split <;> exact instr_updateInstr_self h _

theorem instr_dropInstr_ne (h : id ≠ i) :
    (p.dropInstr id).instr i = p.instr i := by
  unfold dropInstr
  split <;> exact instr_updateInstr_ne h _

theorem same_dropInstr (p : Program) (id i : InstrId) :
    ((p.dropInstr id).instr i).kind = (p.instr i).kind ∧
      ((p.dropInstr id).instr i).ty = (p.instr i).ty ∧
      ((p.dropInstr id).instr i).operands = (p.instr i).operands := by
  unfold dropInstr
  rw [instr_updateInstr]
  split <;> split <;> exact ⟨rfl, rfl, rfl⟩

@[simp] theorem func_dropInstr (p : Program) (id : InstrId) (f : FuncId) :
    (p.dropInstr id).func f = p.func f := by
  unfold dropInstr
  split <;> rfl

@[simp] theorem global_dropInstr (p : Program) (id : InstrId) (g : GlobalId) :
    (p.dropInstr id).global g = p.global g := by
  unfold dropInstr
  split <;> rfl

@[simp] theorem sizes_dropInstr (p : Program) (id : InstrId) :
    (p.dropInstr id).functions.size = p.functions.size ∧
      (p.dropInstr id).blocks.size = p.blocks.size ∧
      (p.dropInstr id).instrs.size = p.instrs.size := by
  unfold dropInstr
  split <;> simp [updateInstr, updateBlock]

theorem block_dropInstr (p : Program) (id : InstrId) (b : BlockId) :
    (p.dropInstr id).block b =
      if (p.instr id).parent = some b then
        { p.block b with instrs := (p.block b).instrs.filter (· != id) }
      else p.block b := by
  unfold dropInstr
  cases hparent : (p.instr id).parent with
  | none => rfl
  | some c =>
    simp only [block_updateInstr, Option.some.injEq]
    rw [block_updateBlock]
    by_cases hcb : c = b
    · subst hcb
      by_cases hlt : c.index < p.blocks.size
      · simp [hlt]
      · simp [hlt, block_of_le (Nat.not_lt.mp hlt), Block.tombstone]
    · simp [hcb]

theorem instrs_dropInstr (hp : p.Sound) (id : InstrId) (b : BlockId) :
    ((p.dropInstr id).block b).instrs = (p.block b).instrs.filter (· != id) := by
  rw [block_dropInstr]
  split
  · rfl
  · rename_i hparent
    refine (List.filter_eq_self.mpr fun i hi => bne_iff_ne.mpr ?_).symm
    rintro rfl
    exact hparent (hp.mem_instrs.mp hi)

theorem evolves_dropInstr (hlive : (p.instr id).erased = false) :
    p.Evolves (p.dropInstr id) := by
  intro hp
  have hlt := instr_lt_of_live hlive
  have hblock : ∀ b, ((p.dropInstr id).block b).parent = (p.block b).parent ∧
      ((p.dropInstr id).block b).erased = (p.block b).erased := by
    intro b
    rw [block_dropInstr]
    split <;> exact ⟨rfl, rfl⟩
  constructor
  · refine ⟨?_, ?_, ?_, ?_, ?_⟩
    · intro b i
      rw [block_dropInstr]
      by_cases hi : id = i
      · subst hi
        rw [instr_dropInstr_self hlt]
        split
        · have hgone : id ∉ (p.block b).instrs.filter (· != id) := by simp
          rw [List.count_eq_zero.mpr hgone]
          rfl
        · rename_i hparent
          rw [hp.instrs b id, if_neg hparent]
          rfl
      · rw [instr_dropInstr_ne hi, ← hp.instrs b i]
        split
        · rw [List.count_filter (by simpa using Ne.symm hi)]
        · rfl
    · intro f b
      rw [func_dropInstr, (hblock b).1]
      exact hp.blocks f b
    · intro i
      by_cases hi : id = i
      · subst hi
        rw [instr_dropInstr_self hlt]
        exact fun _ => rfl
      · rw [instr_dropInstr_ne hi]
        exact hp.erasedInstr i
    · intro b
      rw [(hblock b).1, (hblock b).2]
      intro hb
      obtain ⟨hparent, hnone⟩ := hp.erasedBlock b hb
      refine ⟨hparent, ?_⟩
      rw [block_dropInstr]
      split <;> simp [hnone]
    · rw [index_iff]
      intro f g
      rw [func_dropInstr, func_dropInstr]
      exact hp.names
  · obtain ⟨hfs, hbs, his⟩ := sizes_dropInstr p id
    refine ⟨Nat.le_of_eq hfs.symm, Nat.le_of_eq hbs.symm, Nat.le_of_eq his.symm, ?_, ?_, ?_⟩
    · intro f _ hf
      rw [func_dropInstr]
      exact hf
    · intro b _ hb
      rw [(hblock b).2]
      exact hb
    · intro i _ hi
      by_cases hid : id = i
      · subst hid
        rw [instr_dropInstr_self hlt]
      · rw [instr_dropInstr_ne hid]
        exact hi

theorem evolves_eraseInstr (h : p.eraseInstr id = .ok q) : p.Evolves q := by
  obtain ⟨hlive, rfl⟩ := eraseInstr_ok.mp h
  exact evolves_dropInstr hlive

/-! ## 6. Erased blocks -/

/-- A program in which some instructions are tombstones. -/
def buryInstrs (p : Program) (ids : List InstrId) : Program :=
  ids.foldl (fun p i => p.updateInstr i ({ · with parent := none, erased := true })) p

/-- A program without a block and what stands in it. -/
def dropBlock (p : Program) (id : BlockId) : Program :=
  (match (p.block id).parent with
    | some f => (p.buryInstrs (p.block id).instrs).updateFunc f fun fn =>
        { fn with blocks := fn.blocks.filter (· != id) }
    | none => p.buryInstrs (p.block id).instrs).updateBlock id
      ({ · with parent := none, instrs := [], erased := true })

theorem eraseBlock_ok {id : BlockId} :
    p.eraseBlock id = .ok q ↔ (p.block id).erased = false ∧ q = p.dropBlock id := by
  unfold eraseBlock
  cases h : (p.block id).erased with
  | true => simp [h]
  | false =>
    simp only [h, Bool.false_eq_true, if_false, Except.ok.injEq, true_and]
    exact eq_comm

@[simp] theorem buryInstrs_frame (p : Program) (ids : List InstrId) :
    (p.buryInstrs ids).functions = p.functions ∧ (p.buryInstrs ids).blocks = p.blocks ∧
      (p.buryInstrs ids).instrs.size = p.instrs.size := by
  induction ids generalizing p with
  | nil => exact ⟨rfl, rfl, rfl⟩
  | cons i ids ih =>
    obtain ⟨hf, hb, hi⟩ := ih (p.updateInstr i ({ · with parent := none, erased := true }))
    exact ⟨hf, hb, hi.trans (by simp [updateInstr])⟩

theorem instr_buryInstrs (p : Program) (ids : List InstrId) (i : InstrId) :
    (p.buryInstrs ids).instr i =
      if i ∈ ids ∧ i.index < p.instrs.size then
        { p.instr i with parent := none, erased := true }
      else p.instr i := by
  induction ids generalizing p with
  | nil => simp [buryInstrs]
  | cons j ids ih =>
    rw [buryInstrs, List.foldl_cons]
    refine (ih _).trans ?_
    have hsize : (p.updateInstr j ({ · with parent := none, erased := true })).instrs.size =
        p.instrs.size := by simp [updateInstr]
    rw [hsize, instr_updateInstr]
    by_cases hji : j = i
    · subst hji
      by_cases hlt : j.index < p.instrs.size <;> simp [hlt]
    · simp [hji, Ne.symm hji]

theorem instr_dropBlock (p : Program) (b : BlockId) (i : InstrId) :
    (p.dropBlock b).instr i =
      if i ∈ (p.block b).instrs ∧ i.index < p.instrs.size then
        { p.instr i with parent := none, erased := true }
      else p.instr i := by
  rw [← instr_buryInstrs]
  unfold dropBlock
  split <;> rfl

theorem same_dropBlock (p : Program) (b : BlockId) (i : InstrId) : ∃ parent erased,
    (p.dropBlock b).instr i = { p.instr i with parent := parent, erased := erased } := by
  rw [instr_dropBlock]
  split <;> exact ⟨_, _, rfl⟩

theorem func_dropBlock (p : Program) (b : BlockId) (f : FuncId) :
    (p.dropBlock b).func f =
      if (p.block b).parent = some f then
        { p.func f with blocks := (p.func f).blocks.filter (· != b) }
      else p.func f := by
  have hbury : ∀ g, (p.buryInstrs (p.block b).instrs).func g = p.func g := by
    intro g
    simp [func, buryInstrs_frame]
  unfold dropBlock
  cases hparent : (p.block b).parent with
  | none =>
    simp only [func_updateBlock, reduceCtorEq, if_false]
    exact hbury f
  | some g =>
    simp only [func_updateBlock, Option.some.injEq]
    rw [func_updateFunc, hbury, (buryInstrs_frame p _).1]
    by_cases hgf : g = f
    · subst hgf
      by_cases hlt : g.index < p.functions.size
      · simp [hlt]
      · simp [hlt, func_of_le (Nat.not_lt.mp hlt), Func.tombstone]
    · simp [hgf]

theorem block_dropBlock_self (h : b.index < p.blocks.size) :
    (p.dropBlock b).block b = { p.block b with parent := none, instrs := [], erased := true } := by
  have hbury : ∀ c, (p.buryInstrs (p.block b).instrs).block c = p.block c := by
    intro c
    simp [block, buryInstrs_frame]
  unfold dropBlock
  split
  · rw [block_updateBlock_self (by simpa [updateFunc, buryInstrs_frame] using h), block_updateFunc,
      hbury]
  · rw [block_updateBlock_self (by simpa [buryInstrs_frame] using h), hbury]

theorem block_dropBlock_ne {c : BlockId} (h : b ≠ c) : (p.dropBlock b).block c = p.block c := by
  have hbury : ∀ c, (p.buryInstrs (p.block b).instrs).block c = p.block c := by
    intro c
    simp [block, buryInstrs_frame]
  unfold dropBlock
  split
  · rw [block_updateBlock_ne h, block_updateFunc, hbury]
  · rw [block_updateBlock_ne h, hbury]

@[simp] theorem sizes_dropBlock (p : Program) (b : BlockId) :
    (p.dropBlock b).functions.size = p.functions.size ∧
      (p.dropBlock b).blocks.size = p.blocks.size ∧
      (p.dropBlock b).instrs.size = p.instrs.size := by
  unfold dropBlock
  split
  · simp [updateBlock, updateFunc]
  · simp [updateBlock]

theorem evolves_dropBlock (hlive : (p.block b).erased = false) :
    p.Evolves (p.dropBlock b) := by
  intro hp
  have hlt := block_lt_of_live hlive
  have hfunc : ∀ f, ((p.dropBlock b).func f).erased = (p.func f).erased ∧
      ((p.dropBlock b).func f).name = (p.func f).name := by
    intro f
    rw [func_dropBlock]
    split <;> exact ⟨rfl, rfl⟩
  have hinside : ∀ i, (p.instr i).parent = some b → (p.dropBlock b).instr i =
      { p.instr i with parent := none, erased := true } := by
    intro i hi
    rw [instr_dropBlock, if_pos ⟨hp.mem_instrs.mpr hi, instr_lt_of_parent hi⟩]
  have houtside : ∀ i, (p.instr i).parent ≠ some b → (p.dropBlock b).instr i = p.instr i := by
    intro i hi
    rw [instr_dropBlock, if_neg fun hand => hi (hp.mem_instrs.mp hand.1)]
  constructor
  · refine ⟨?_, ?_, ?_, ?_, ?_⟩
    · intro c i
      by_cases hc : b = c
      · subst hc
        rw [block_dropBlock_self hlt]
        by_cases hi : (p.instr i).parent = some b
        · simp [hinside i hi]
        · simp [houtside i hi, hi]
      · rw [block_dropBlock_ne hc, hp.instrs c i]
        by_cases hi : (p.instr i).parent = some b
        · simp [hinside i hi, hi, hc]
        · rw [houtside i hi]
    · intro f c
      rw [func_dropBlock]
      by_cases hc : b = c
      · subst hc
        rw [block_dropBlock_self hlt]
        split
        · have hgone : b ∉ (p.func f).blocks.filter (· != b) := by simp
          rw [List.count_eq_zero.mpr hgone]
          rfl
        · rename_i hparent
          rw [hp.blocks f b, if_neg hparent]
          rfl
      · rw [block_dropBlock_ne hc, ← hp.blocks f c]
        split
        · rw [List.count_filter (by simpa using Ne.symm hc)]
        · rfl
    · intro i
      by_cases hi : (p.instr i).parent = some b
      · rw [hinside i hi]
        exact fun _ => rfl
      · rw [houtside i hi]
        exact hp.erasedInstr i
    · intro c
      by_cases hc : b = c
      · subst hc
        rw [block_dropBlock_self hlt]
        exact fun _ => ⟨rfl, rfl⟩
      · rw [block_dropBlock_ne hc]
        exact hp.erasedBlock c
    · rw [index_iff]
      intro f g
      rw [(hfunc f).1, (hfunc f).2, (hfunc g).1, (hfunc g).2]
      exact hp.names
  · obtain ⟨hfs, hbs, his⟩ := sizes_dropBlock p b
    refine ⟨Nat.le_of_eq hfs.symm, Nat.le_of_eq hbs.symm, Nat.le_of_eq his.symm, ?_, ?_, ?_⟩
    · intro f _ hf
      rw [(hfunc f).1]
      exact hf
    · intro c _ hc
      by_cases hbc : b = c
      · subst hbc
        rw [block_dropBlock_self hlt]
      · rw [block_dropBlock_ne hbc]
        exact hc
    · intro i _ herased
      by_cases hi : (p.instr i).parent = some b
      · rw [hinside i hi]
      · rw [houtside i hi]
        exact herased

theorem evolves_eraseBlock (h : p.eraseBlock b = .ok q) : p.Evolves q := by
  obtain ⟨hlive, rfl⟩ := eraseBlock_ok.mp h
  exact evolves_dropBlock hlive

/-! ## 7. Erased functions -/

/-- A program without some blocks. -/
def dropBlocks (p : Program) (bs : List BlockId) : Program :=
  bs.foldl dropBlock p

/-- A program without a function and its body. -/
def dropFunction (p : Program) (f : FuncId) : Program :=
  (p.dropBlocks (p.func f).blocks).updateFunc f ({ · with erased := true })

theorem same_dropBlocks (p : Program) (bs : List BlockId) (i : InstrId) : ∃ parent erased,
    (p.dropBlocks bs).instr i = { p.instr i with parent := parent, erased := erased } := by
  induction bs generalizing p with
  | nil => exact ⟨_, _, rfl⟩
  | cons b bs ih =>
    obtain ⟨parent, erased, hrest⟩ := ih (p.dropBlock b)
    obtain ⟨_, _, hone⟩ := same_dropBlock p b i
    rw [hone] at hrest
    exact ⟨parent, erased, hrest⟩

theorem sizes_dropBlocks (p : Program) (bs : List BlockId) :
    (p.dropBlocks bs).functions.size = p.functions.size ∧
      (p.dropBlocks bs).instrs.size = p.instrs.size := by
  induction bs generalizing p with
  | nil => exact ⟨rfl, rfl⟩
  | cons b bs ih =>
    obtain ⟨hfunctions, -, hinstrs⟩ := sizes_dropBlock p b
    exact ⟨(ih _).1.trans hfunctions, (ih _).2.trans hinstrs⟩

theorem same_dropFunction (p : Program) (f : FuncId) (i : InstrId) : ∃ parent erased,
    (p.dropFunction f).instr i = { p.instr i with parent := parent, erased := erased } :=
  same_dropBlocks p (p.func f).blocks i

theorem foldlM_eraseBlock {bs : List BlockId} (hbs : bs.Nodup)
    (hlive : ∀ b ∈ bs, (p.block b).erased = false) :
    bs.foldlM eraseBlock p = .ok (p.dropBlocks bs) := by
  induction bs generalizing p with
  | nil => rfl
  | cons b bs ih =>
    obtain ⟨hb, hbs⟩ := List.nodup_cons.mp hbs
    rw [List.foldlM_cons, eraseBlock_ok.mpr ⟨hlive b List.mem_cons_self, rfl⟩]
    apply ih hbs
    intro c hc
    have hbc : b ≠ c := by
      rintro rfl
      exact hb hc
    rw [block_dropBlock_ne hbc]
    exact hlive c (List.mem_cons_of_mem b hc)

theorem evolves_dropBlocks {bs : List BlockId} (hbs : bs.Nodup)
    (hlive : ∀ b ∈ bs, (p.block b).erased = false) : p.Evolves (p.dropBlocks bs) := by
  induction bs generalizing p with
  | nil => exact .refl p
  | cons b bs ih =>
    obtain ⟨hb, hbs⟩ := List.nodup_cons.mp hbs
    refine (evolves_dropBlock (hlive b List.mem_cons_self)).trans (ih hbs ?_)
    intro c hc
    have hbc : b ≠ c := by
      rintro rfl
      exact hb hc
    rw [block_dropBlock_ne hbc]
    exact hlive c (List.mem_cons_of_mem b hc)

theorem eraseFunction_ok (hp : p.Sound) :
    p.eraseFunction f = .ok q ↔ (p.func f).erased = false ∧ q = p.dropFunction f := by
  unfold eraseFunction
  cases h : (p.func f).erased with
  | true => simp [h]
  | false =>
    simp only [h, Bool.false_eq_true, if_false, true_and]
    rw [foldlM_eraseBlock (hp.nodup_blocks f) fun b hb => hp.block_live_of_listed hb]
    simp only [bind, Except.bind, Except.ok.injEq]
    exact eq_comm

theorem evolves_updateFunc_erased (p : Program) (f : FuncId) :
    p.Evolves (p.updateFunc f ({ · with erased := true })) := by
  intro hp
  have hfunc : ∀ g, ((p.updateFunc f ({ · with erased := true })).func g).blocks =
      (p.func g).blocks ∧
      ((p.updateFunc f ({ · with erased := true })).func g).name = (p.func g).name ∧
      ((p.func g).erased = true →
        ((p.updateFunc f ({ · with erased := true })).func g).erased = true) := by
    intro g
    rw [func_updateFunc]
    split
    · exact ⟨rfl, rfl, fun _ => rfl⟩
    · exact ⟨rfl, rfl, id⟩
  have hback : ∀ g, ((p.updateFunc f ({ · with erased := true })).func g).erased = false →
      (p.func g).erased = false := by
    intro g hg
    cases herased : (p.func g).erased with
    | false => rfl
    | true =>
      rw [(hfunc g).2.2 herased] at hg
      cases hg
  constructor
  · refine ⟨hp.instrs, ?_, hp.erasedInstr, hp.erasedBlock, ?_⟩
    · intro g b
      rw [(hfunc g).1]
      exact hp.blocks g b
    · rw [index_iff]
      intro g h hg hh hname
      rw [(hfunc g).2.1, (hfunc h).2.1] at hname
      exact hp.names (hback g hg) (hback h hh) hname
  · exact ⟨by simp [updateFunc], Nat.le_refl _, Nat.le_refl _, fun g _ hg => (hfunc g).2.2 hg,
      fun _ _ h => h, fun _ _ h => h⟩

theorem evolves_eraseFunction (h : p.eraseFunction f = .ok q) : p.Evolves q := by
  intro hp
  obtain ⟨-, rfl⟩ := (eraseFunction_ok hp).mp h
  exact ((evolves_dropBlocks (hp.nodup_blocks f) fun b hb => hp.block_live_of_listed hb).trans
    (evolves_updateFunc_erased _ f)) hp

/-! ## 8. Soundness can be checked -/

/-- All nodes that are named as parents or listed are there. -/
structure CheckedRange (p : Program) : Prop where
  parentOfInstr : ∀ i < p.instrs.size, ∀ b ∈ (p.instr ⟨i⟩).parent.toList, b.index < p.blocks.size
  parentOfBlock : ∀ b < p.blocks.size, ∀ f ∈ (p.block ⟨b⟩).parent.toList, f.index < p.functions.size
  listedInstr : ∀ b < p.blocks.size, ∀ i ∈ (p.block ⟨b⟩).instrs, i.index < p.instrs.size
  listedBlock : ∀ f < p.functions.size, ∀ b ∈ (p.func ⟨f⟩).blocks, b.index < p.blocks.size

/-- Erased nodes stand nowhere, and live functions have names of their own. -/
structure CheckedLives (p : Program) : Prop where
  erasedInstr : ∀ i < p.instrs.size, (p.instr ⟨i⟩).erased = true → (p.instr ⟨i⟩).parent = none
  erasedBlock : ∀ b < p.blocks.size, (p.block ⟨b⟩).erased = true →
    (p.block ⟨b⟩).parent = none ∧ (p.block ⟨b⟩).instrs = []
  names : ∀ f < p.functions.size, ∀ g < p.functions.size, (p.func ⟨f⟩).erased = false →
    (p.func ⟨g⟩).erased = false → (p.func ⟨f⟩).name = (p.func ⟨g⟩).name → f = g

/-- What `Sound` says about the nodes that there are. -/
structure CheckedSound (p : Program) : Prop extends CheckedRange p, CheckedLives p where
  instrs : ∀ b < p.blocks.size, ∀ i < p.instrs.size, (p.block ⟨b⟩).instrs.count ⟨i⟩ =
    if (p.instr ⟨i⟩).parent = some ⟨b⟩ then 1 else 0
  blocks : ∀ f < p.functions.size, ∀ b < p.blocks.size, (p.func ⟨f⟩).blocks.count ⟨b⟩ =
    if (p.block ⟨b⟩).parent = some ⟨f⟩ then 1 else 0

/-- Soundness can be computed. -/
theorem sound_of_checked (h : p.CheckedSound) : p.Sound := by
  have hcount : ∀ {α : Type} [BEq α] [LawfulBEq α] {l : List α} {a : α} {n : Prop} [Decidable n],
      a ∉ l → ¬ n → l.count a = if n then 1 else 0 := by
    intro α _ _ l a n _ ha hn
    rw [List.count_eq_zero_of_not_mem ha, if_neg hn]
  refine ⟨?_, ?_, ?_, ?_, ?_⟩
  · rintro ⟨b⟩ ⟨i⟩
    by_cases hb : b < p.blocks.size
    · by_cases hi : i < p.instrs.size
      · exact h.instrs b hb i hi
      · apply hcount
        · exact fun hmem => hi (h.listedInstr b hb _ hmem)
        · exact fun hparent => hi (instr_lt_of_parent hparent)
    · apply hcount
      · exact fun hmem => hb (block_lt_of_mem hmem)
      · exact fun hparent => hb (h.parentOfInstr i (instr_lt_of_parent hparent) _
        (Option.mem_toList.mpr hparent))
  · rintro ⟨f⟩ ⟨b⟩
    by_cases hf : f < p.functions.size
    · by_cases hb : b < p.blocks.size
      · exact h.blocks f hf b hb
      · apply hcount
        · exact fun hmem => hb (h.listedBlock f hf _ hmem)
        · exact fun hparent => hb (block_lt_of_parent hparent)
    · apply hcount
      · exact fun hmem => hf (func_lt_of_mem hmem)
      · exact fun hparent => hf (h.parentOfBlock b (block_lt_of_parent hparent) _
        (Option.mem_toList.mpr hparent))
  · rintro ⟨i⟩ herased
    by_cases hi : i < p.instrs.size
    · exact h.erasedInstr i hi herased
    · rw [instr_of_le (Nat.not_lt.mp hi)]
      rfl
  · rintro ⟨b⟩ herased
    by_cases hb : b < p.blocks.size
    · exact h.erasedBlock b hb herased
    · rw [block_of_le (Nat.not_lt.mp hb)]
      exact ⟨rfl, rfl⟩
  · rw [index_iff]
    rintro ⟨f⟩ ⟨g⟩ hf hg hname
    rw [h.names f (func_lt_of_live hf) g (func_lt_of_live hg) hf hg hname]

theorem Sound.checked (h : p.Sound) : p.CheckedSound where
  parentOfInstr _ _ _ hb := block_lt_of_mem (h.mem_instrs.mpr (Option.mem_toList.mp hb))
  parentOfBlock _ _ _ hf := func_lt_of_mem (h.mem_blocks.mpr (Option.mem_toList.mp hf))
  listedInstr _ _ _ hi := instr_lt_of_parent (h.mem_instrs.mp hi)
  listedBlock _ _ _ hb := block_lt_of_parent (h.mem_blocks.mp hb)
  instrs b _ i _ := h.instrs ⟨b⟩ ⟨i⟩
  blocks f _ b _ := h.blocks ⟨f⟩ ⟨b⟩
  erasedInstr i _ := h.erasedInstr ⟨i⟩
  erasedBlock b _ := h.erasedBlock ⟨b⟩
  names _ _ _ _ hf hg hname := congrArg FuncId.index (h.names hf hg hname)

instance (p : Program) : Decidable p.CheckedRange :=
  decidable_of_iff (_ ∧ _ ∧ _ ∧ _)
    ⟨fun ⟨h₁, h₂, h₃, h₄⟩ => ⟨h₁, h₂, h₃, h₄⟩, fun h => ⟨h.1, h.2, h.3, h.4⟩⟩

instance (p : Program) : Decidable p.CheckedLives :=
  decidable_of_iff (_ ∧ _ ∧ _) ⟨fun ⟨h₁, h₂, h₃⟩ => ⟨h₁, h₂, h₃⟩, fun h => ⟨h.1, h.2, h.3⟩⟩

instance (p : Program) : Decidable p.CheckedSound :=
  decidable_of_iff (p.CheckedRange ∧ p.CheckedLives ∧ _ ∧ _)
    ⟨fun ⟨h₁, h₂, h₃, h₄⟩ => ⟨h₁, h₂, h₃, h₄⟩, fun h => ⟨h.1, h.2, h.3, h.4⟩⟩

instance (p : Program) : Decidable p.Sound :=
  decidable_of_iff p.CheckedSound ⟨sound_of_checked, Sound.checked⟩

end QirProfile.Program
