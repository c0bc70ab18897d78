import QirProfile.Proofs.Program.Copies
import QirProfile.Proofs.Steps

/-!
# Programs under edit

`Change` names the edits of a program, and `serve` is the program behind one of them, whether it was
carried out or refused. Each keeps what `Evolves` says: a sound program stays sound, and a tombstone
stays one.
-/

namespace QirProfile.Program

variable {id old new : InstrId}

/-! ## 1. Changes -/

/-- An edit of a program. -/
inductive Change where
  | addFunction (name : String) (sig : Signature) (names : List (Option String))
  | ensureFunction (name : String) (sig : Signature)
  | appendBlock (f : FuncId) (name : Option String)
  | createInstr (kind : InstrKind) (ty : Ty) (operands : List Value)
  | appendInstr (b : BlockId) (id : InstrId)
  | insertBefore (anchor id : InstrId)
  | insertAfter (anchor id : InstrId)
  | setOperand (id : InstrId) (index : Nat) (v : Value)
  | setOperands (id : InstrId) (operands : List Value)
  | setKind (id : InstrId) (kind : InstrKind)
  | replaceUses (old new : Value)
  | replaceInstr (old new : InstrId)
  | eraseInstr (id : InstrId)
  | eraseBlock (b : BlockId)
  | eraseFunction (f : FuncId)
  | specialise (source : FuncId) (constants : List (Nat × Value))
  /-- An instruction made by a builder at its place. -/
  | build (place : Place) (draft : Edit.Draft)

/-- What a change does. -/
def Change.perform : Change → Edit Unit
  | addFunction name sig names => discard (Edit.tryMake (·.addFunction name sig names))
  | ensureFunction name sig => discard (Edit.make (·.ensureFunction name sig))
  | appendBlock f name => discard (Edit.make (·.appendBlock f name))
  | createInstr kind ty operands => discard (Edit.make (·.createInstr kind ty operands))
  | appendInstr b id => Edit.attempt (·.appendInstr b id)
  | insertBefore anchor id => Edit.attempt (·.insertBefore anchor id)
  | insertAfter anchor id => Edit.attempt (·.insertAfter anchor id)
  | setOperand id index v => Edit.attempt (·.setOperand id index v)
  | setOperands id operands => Edit.attempt (·.setOperands id operands)
  | setKind id kind => Edit.attempt (·.setKind id kind)
  | replaceUses old new => modify (·.replaceUses old new)
  | replaceInstr old new => Edit.attempt (·.replaceInstr old new)
  | eraseInstr id => Edit.attempt (·.eraseInstr id)
  | eraseBlock b => Edit.attempt (·.eraseBlock b)
  | eraseFunction f => Edit.attempt (·.eraseFunction f)
  | specialise source constants => discard (Edit.tryMake (·.specialise source constants))
  | build place draft => discard (Edit.insert place draft)

/-- The program behind a change, whether it was carried out or refused. -/
def serve (p : Program) (c : Change) : Program :=
  behind c.perform p

/-- The handles of a change belong to the program. Only the function of a new block matters: every
    other edit refuses a handle that it does not know, or leaves it alone. -/
def Change.InRange (p : Program) : Change → Prop
  | appendBlock f _ => f.index < p.functions.size
  | _ => True

/-! ## 2. Single edits -/

variable {p q : Program}

theorem evolves_addFunction {name : String} {sig : Signature} {names : List (Option String)}
    {f : FuncId} (h : p.addFunction name sig names = .ok (q, f)) : p.Evolves q := by
  unfold addFunction at h
  split at h
  · cases h
  · rename_i htaken
    cases h
    refine evolves_pushFunction rfl fun g hg heq => htaken ?_
    have hfound : (p.findFunction? name).isSome = true :=
      List.find?_isSome.mpr ⟨g, mem_liveFunctions.mpr hg, beq_iff_eq.mpr heq⟩
    simp [isTaken, hfound]

theorem evolves_ensureFunction (p : Program) (name : String) (sig : Signature) :
    p.Evolves (p.ensureFunction name sig).1 := by
  unfold ensureFunction
  cases h : p.findFunction? name with
  | some f => exact .refl p
  | none => exact evolves_pushFunction rfl fun g hg => findFunction?_none h hg

theorem sameFrame_setOperand {index : Nat} {v : Value}
    (h : p.setOperand id index v = .ok q) : p.SameFrame q := by
  unfold setOperand at h
  obtain ⟨u, -, h⟩ := except_bind_ok.mp h
  split at h
  · cases h
    exact sameFrame_updateInstr (g := fun i => { i with operands := i.operands.set index v })
      (fun _ => ⟨rfl, rfl⟩) p id
  · cases h

theorem sameFrame_setOperands {operands : List Value}
    (h : p.setOperands id operands = .ok q) : p.SameFrame q := by
  unfold setOperands at h
  obtain ⟨u, -, h⟩ := except_bind_ok.mp h
  cases h
  exact sameFrame_updateInstr (g := ({ · with operands := operands })) (fun _ => ⟨rfl, rfl⟩) p id

theorem sameFrame_setKind {kind : InstrKind} (h : p.setKind id kind = .ok q) :
    p.SameFrame q := by
  unfold setKind at h
  obtain ⟨u, -, h⟩ := except_bind_ok.mp h
  cases h
  exact sameFrame_updateInstr (g := ({ · with kind := kind })) (fun _ => ⟨rfl, rfl⟩) p id

theorem replaceInstr_ok : p.replaceInstr old new = .ok q ↔
    ∃ r, p.insertBefore old new = .ok r ∧
      ((r.takeName old new).replaceUses (.instr old) (.instr new)).eraseInstr old = .ok q := by
  unfold replaceInstr
  exact except_bind_ok

theorem evolves_replaceInstr (h : p.replaceInstr old new = .ok q) :
    p.Evolves q := by
  obtain ⟨r, hinsert, herase⟩ := replaceInstr_ok.mp h
  exact ((evolves_insertBeside (Nat.zero_le 1) hinsert).trans
    ((sameFrame_takeName r old new).trans (sameFrame_replaceUses _ _ _)).evolves).trans
    (evolves_eraseInstr herase)

theorem replaceInstr_of_insertBefore (h : p.insertBefore old new = .ok q) :
    ∃ r, p.replaceInstr old new = .ok r := by
  obtain ⟨-, b, n, hpos, rfl⟩ := insertBeside_ok.mp h
  have hold := (positionOf_ok.mp hpos).1
  refine ⟨_, replaceInstr_ok.mpr ⟨_, h, eraseInstr_ok.mpr ⟨?_, rfl⟩⟩⟩
  have hframe := (sameFrame_takeName (p.attach b new (·.insertIdx (n + 0) new)) old new).trans
    (sameFrame_replaceUses _ (.instr old) (.instr new))
  rw [(hframe.instr old).2]
  unfold attach
  rw [instr_updateInstr]
  split <;> exact hold

/-! ## 3. All changes -/

instance : IsPreorder Program Evolves where
  refl p := .refl p
  trans _ _ _ h₁ h₂ := h₁.trans h₂

section

variable {α : Type} {R : Program → Program → Prop} [IsPreorder Program R]

theorem always_attempt {f : Program → Except ProgramError Program}
    (hf : ∀ p q, f p = .ok q → R p q) : Always R (Edit.attempt f) := by
  intro p
  unfold behind Edit.attempt
  cases h : f p with
  | ok q => exact hf p q h
  | error e => exact refl_of R p

theorem always_tryMake {f : Program → Except ProgramError (Program × α)}
    (hf : ∀ p q a, f p = .ok (q, a) → R p q) : Always R (Edit.tryMake f) := by
  intro p
  unfold behind Edit.tryMake
  cases h : f p with
  | ok x => exact hf p x.1 x.2 h
  | error e => exact refl_of R p

end

theorem behind_tryMake {α : Type} (f : Program → Except ProgramError (Program × α)) (p : Program) :
    behind (discard (Edit.tryMake f)) p =
      match f p with
      | .ok (q, _) => q
      | .error _ => p := by
  cases h : f p <;> simp [behind, discard, Functor.mapConst, EStateM.map, Edit.tryMake, h]

theorem behind_attempt (f : Program → Except ProgramError Program) (p : Program) :
    behind (Edit.attempt f) p =
      match f p with
      | .ok q => q
      | .error _ => p := by
  cases h : f p <;> simp [behind, Edit.attempt, h]

theorem always_insert {R : Program → Program → Prop} [IsPreorder Program R]
    (hcreate : ∀ p kind ty operands, R p (p.createInstr kind ty operands).1)
    (hname : ∀ p id name, R p (p.setInstrName id name))
    (hbeside : ∀ {p q anchor id offset}, offset ≤ 1 → p.insertBeside anchor id offset = .ok q → R p q)
    (happend : ∀ {p q b id}, p.appendInstr b id = .ok q → R p q) (place : Place)
    (draft : Edit.Draft) : Always R (Edit.insert place draft) := by
  have hseq : Sequential (fun {α} => Always (ε := ProgramError) (α := α) R) := sequential_always
  unfold Edit.insert Edit.insertMoving
  refine hseq.bind ?_ fun _ => hseq.pure _
  refine hseq.bind (fun p => hcreate p _ _ _) fun id => hseq.bind (fun p => hname p id _) fun _ => ?_
  cases place with
  | before anchor =>
    exact hseq.bind (always_attempt fun _ _ h => hbeside (Nat.zero_le 1) h) fun _ => hseq.pure _
  | after anchor =>
    exact hseq.bind (always_attempt fun _ _ h => hbeside (Nat.le_refl 1) h) fun _ => hseq.pure _
  | endOf b => exact hseq.bind (always_attempt fun _ _ h => happend h) fun _ => hseq.pure _
  | detached => exact hseq.pure _

theorem evolves_insert (place : Place) (draft : Edit.Draft) :
    Always Evolves (Edit.insert place draft) :=
  always_insert evolves_createInstr (fun p id name => (sameFrame_setInstrName p id name).evolves)
    evolves_insertBeside evolves_appendInstr place draft

/-- The functions and the globals are as they were. -/
def SameTop (p q : Program) : Prop := q.functions = p.functions ∧ q.globals = p.globals

instance : IsPreorder Program SameTop where
  refl _ := ⟨rfl, rfl⟩
  trans _ _ _ h₁ h₂ := ⟨h₂.1.trans h₁.1, h₂.2.trans h₁.2⟩

theorem sameTop_insertBeside {anchor : InstrId} {offset : Nat}
    (h : p.insertBeside anchor id offset = .ok q) : p.SameTop q := by
  obtain ⟨-, b, n, -, rfl⟩ := insertBeside_ok.mp h
  exact ⟨rfl, rfl⟩

theorem sameTop_appendInstr {b : BlockId} (h : p.appendInstr b id = .ok q) :
    p.SameTop q := by
  obtain ⟨-, -, rfl⟩ := appendInstr_ok.mp h
  exact ⟨rfl, rfl⟩

theorem sameTop_eraseInstr (h : p.eraseInstr id = .ok q) : p.SameTop q := by
  obtain ⟨-, rfl⟩ := eraseInstr_ok.mp h
  unfold dropInstr
  split <;> exact ⟨rfl, rfl⟩

theorem sameTop_setOperand {index : Nat} {v : Value}
    (h : p.setOperand id index v = .ok q) : p.SameTop q := by
  unfold setOperand at h
  obtain ⟨u, -, h⟩ := except_bind_ok.mp h
  split at h <;> cases h
  exact ⟨rfl, rfl⟩

theorem sameTop_setOperands {operands : List Value}
    (h : p.setOperands id operands = .ok q) : p.SameTop q := by
  obtain ⟨u, -, h⟩ := except_bind_ok.mp h
  cases h
  exact ⟨rfl, rfl⟩

theorem sameTop_setKind {kind : InstrKind} (h : p.setKind id kind = .ok q) :
    p.SameTop q := by
  obtain ⟨u, -, h⟩ := except_bind_ok.mp h
  cases h
  exact ⟨rfl, rfl⟩

theorem sameTop_insert (place : Place) (draft : Edit.Draft) :
    Always SameTop (Edit.insert place draft) :=
  always_insert (fun _ _ _ _ => ⟨rfl, rfl⟩) (fun _ _ _ => ⟨rfl, rfl⟩)
    (fun _ h => sameTop_insertBeside h) sameTop_appendInstr place draft

/-- The step: every edit keeps a program sound, and tombstones as they are. -/
theorem evolves_serve {c : Change} (hc : c.InRange p) : p.Evolves (p.serve c) := by
  cases c with
  | addFunction name sig names =>
    exact (sequential_always (R := Evolves)).discard
      (always_tryMake fun _ _ _ h => evolves_addFunction h) p
  | ensureFunction name sig => exact evolves_ensureFunction p name sig
  | appendBlock f name => exact evolves_appendBlock hc name
  | createInstr kind ty operands => exact evolves_createInstr p kind ty operands
  | appendInstr b id => exact always_attempt (R := Evolves) (fun _ _ h => evolves_appendInstr h) p
  | insertBefore anchor id =>
    exact always_attempt (R := Evolves) (fun _ _ h => evolves_insertBeside (Nat.zero_le 1) h) p
  | insertAfter anchor id =>
    exact always_attempt (R := Evolves) (fun _ _ h => evolves_insertBeside (Nat.le_refl 1) h) p
  | setOperand id index v =>
    exact always_attempt (R := Evolves) (fun _ _ h => (sameFrame_setOperand h).evolves) p
  | setOperands id operands =>
    exact always_attempt (R := Evolves) (fun _ _ h => (sameFrame_setOperands h).evolves) p
  | setKind id kind =>
    exact always_attempt (R := Evolves) (fun _ _ h => (sameFrame_setKind h).evolves) p
  | replaceUses old new => exact (sameFrame_replaceUses p old new).evolves
  | replaceInstr old new =>
    exact always_attempt (R := Evolves) (fun _ _ h => evolves_replaceInstr h) p
  | eraseInstr id => exact always_attempt (R := Evolves) (fun _ _ h => evolves_eraseInstr h) p
  | eraseBlock b => exact always_attempt (R := Evolves) (fun _ _ h => evolves_eraseBlock h) p
  | eraseFunction f => exact always_attempt (R := Evolves) (fun _ _ h => evolves_eraseFunction h) p
  | specialise source constants =>
    exact (sequential_always (R := Evolves)).discard
      (always_tryMake fun _ _ _ h => evolves_specialise h) p
  | build place draft =>
    exact (sequential_always (R := Evolves)).discard (evolves_insert place draft) p

theorem sound_empty (name : String) : (empty name).Sound := by
  have hinstr : ∀ i, (empty name).instr i = Instr.tombstone := fun i => instr_of_le (Nat.zero_le _)
  have hblock : ∀ b, (empty name).block b = Block.tombstone := fun b => block_of_le (Nat.zero_le _)
  have hfunc : ∀ f, (empty name).func f = Func.tombstone := fun f => func_of_le (Nat.zero_le _)
  refine ⟨?_, ?_, ?_, ?_, ?_⟩
  · intro b i
    rw [hblock, hinstr]
    rfl
  · intro f b
    rw [hfunc, hblock]
    rfl
  · intro i _
    rw [hinstr]
    rfl
  · intro b _
    rw [hblock]
    exact ⟨rfl, rfl⟩
  · rw [index_iff]
    intro f g hf
    rw [hfunc] at hf
    cases hf

/-- Edits that are made of others are carried out as a whole or refused before anything is done. -/
structure Whole (p : Program) : Prop where
  eraseFunction : ∀ f, (p.func f).erased = false → ∃ q, p.eraseFunction f = .ok q
  replaceInstr : ∀ old new q, p.insertBefore old new = .ok q → ∃ r, p.replaceInstr old new = .ok r

theorem Sound.whole (hp : p.Sound) : p.Whole := by
  constructor
  · intro f hf
    exact ⟨_, (eraseFunction_ok hp).mpr ⟨hf, rfl⟩⟩
  · intro old new q
    exact replaceInstr_of_insertBefore

end QirProfile.Program
